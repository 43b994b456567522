import Ragged.Word

/-!
# Pointers

A pointer says where the content of one element lies in the heap: `length` bytes from `offset` on. It is stored in
sixteen bytes, the offset before the length, each with its lowest byte first. The offsets of contents that lie back to
back are the sums of the lengths before them.
-/

namespace Ragged

namespace Bytes

/-- The `width` lowest bytes of a number. -/
def ofNat : Nat → Nat → List UInt8
  | 0, _ => []
  | width + 1, n => UInt8.ofNat n :: ofNat width (n / 256)

def toNat : List UInt8 → Nat
  | [] => 0
  | b :: bs => b.toNat + 256 * toNat bs

end Bytes

structure Pointer where
  offset : UInt64
  length : UInt64
deriving DecidableEq, Inhabited

namespace Pointer

def render (p : Pointer) : String := s!"(offset {p.offset}, length {p.length})"

/-- The first byte of the content and the one after its last, if that is a word. -/
def byteRange? (p : Pointer) : Option (Nat × Nat) :=
  (Word.add? p.offset.toNat p.length.toNat).map (p.offset.toNat, ·)

/-- The bytes of the content, if they lie in a heap of the given size. -/
def checkWithin (p : Pointer) (heapSize : Nat) : Outcome (Nat × Nat) :=
  let outside := Error.corruption s!"pointer {p.render} out of range of the heap of {heapSize} bytes"
  match p.byteRange? with
  | some (start, stop) => if stop ≤ heapSize then .ok (start, stop) else .fail outside
  | none => .fail outside

def width : Nat := 16

def toBytes (p : Pointer) : List UInt8 :=
  Bytes.ofNat 8 p.offset.toNat ++ Bytes.ofNat 8 p.length.toNat

def ofBytes (bytes : List UInt8) : Pointer where
  offset := UInt64.ofNat (Bytes.toNat (bytes.take 8))
  length := UInt64.ofNat (Bytes.toNat ((bytes.drop 8).take 8))

/-- Pointers back to back, for stores of bytes. -/
def encode (ps : List Pointer) : List UInt8 := ps.flatMap toBytes

def decodeMany : Nat → List UInt8 → List Pointer
  | 0, _ => []
  | n + 1, bytes => ofBytes (bytes.take width) :: decodeMany n (bytes.drop width)

def decode (bytes : List UInt8) : Outcome (List Pointer) :=
  if bytes.length % width = 0 then .ok (decodeMany (bytes.length / width) bytes)
  else .fail (.undecodable s!"{bytes.length} bytes is not a whole number of {width} byte pointer records")

/-- The offset of every content, for contents that lie back to back from `start` on. The end of the last content
is a word too. -/
def offsetsFrom (start : UInt64) : List UInt64 → Outcome (List UInt64)
  | [] => .ok []
  | length :: lengths =>
    match Word.add? start.toNat length.toNat with
    | some stop => do return start :: (← offsetsFrom (UInt64.ofNat stop) lengths)
    | none => .fail (.invalidArgument s!"heap offsets overflow past {start}")

def offsets (lengths : List UInt64) : Outcome (List UInt64) := offsetsFrom 0 lengths

end Pointer

end Ragged

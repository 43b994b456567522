/-!
# UTF-8

A byte string is split into the characters it encodes and the ill-formed parts between them. A part is as long as
the bytes that could still begin a character, and one byte at least. `decode` accepts a byte string without such
parts; `decodeLossy` shows each of them as one replacement character.
-/

namespace Ragged.Utf8

def encode (s : String) : List UInt8 := s.toList.flatMap String.utf8EncodeChar

/-- A piece of a byte string: a character, an ill-formed part of some bytes, or the beginning of a character at
the end of the string. -/
inductive Piece where
  | char (c : Char)
  | illFormed (width : Nat)
  | cutShort
deriving DecidableEq

/-- The six bits that a byte after the first one carries. -/
def tail? (b : UInt8) : Option Nat :=
  if 0x80 ≤ b.toNat ∧ b.toNat ≤ 0xBF then some (b.toNat - 0x80) else none

/-- As `tail?`, for the second byte after a first byte that starts three: the ranges leave out longer forms than
needed and the surrogates. -/
def tailOfThree? (a b : UInt8) : Option Nat :=
  if (a = 0xE0 ∧ b.toNat < 0xA0) ∨ (a = 0xED ∧ 0x9F < b.toNat) then none else tail? b

/-- As `tail?`, for the second byte after a first byte that starts four: the ranges leave out longer forms than
needed and what lies above the last character. -/
def tailOfFour? (a b : UInt8) : Option Nat :=
  if (a = 0xF0 ∧ b.toNat < 0x90) ∨ (a = 0xF4 ∧ 0x8F < b.toNat) then none else tail? b

def pieces : List UInt8 → List Piece
  | [] => []
  | a :: rest =>
    if a.toNat ≤ 0x7F then .char (Char.ofNat a.toNat) :: pieces rest
    else if 0xC2 ≤ a.toNat ∧ a.toNat ≤ 0xDF then
      match rest with
      | [] => [.cutShort]
      | b :: rest₁ =>
        match tail? b with
        | none => .illFormed 1 :: pieces (b :: rest₁)
        | some y => .char (Char.ofNat ((a.toNat - 0xC0) * 64 + y)) :: pieces rest₁
    else if 0xE0 ≤ a.toNat ∧ a.toNat ≤ 0xEF then
      match rest with
      | [] => [.cutShort]
      | b :: rest₁ =>
        match tailOfThree? a b, rest₁ with
        | none, rest₁ => .illFormed 1 :: pieces (b :: rest₁)
        | some _, [] => [.cutShort]
        | some y, c :: rest₂ =>
          match tail? c with
          | none => .illFormed 2 :: pieces (c :: rest₂)
          | some z => .char (Char.ofNat ((a.toNat - 0xE0) * 4096 + y * 64 + z)) :: pieces rest₂
    else if 0xF0 ≤ a.toNat ∧ a.toNat ≤ 0xF4 then
      match rest with
      | [] => [.cutShort]
      | b :: rest₁ =>
        match tailOfFour? a b, rest₁ with
        | none, rest₁ => .illFormed 1 :: pieces (b :: rest₁)
        | some _, [] => [.cutShort]
        | some y, c :: rest₂ =>
          match tail? c, rest₂ with
          | none, rest₂ => .illFormed 2 :: pieces (c :: rest₂)
          | some _, [] => [.cutShort]
          | some z, d :: rest₃ =>
            match tail? d with
            | none => .illFormed 3 :: pieces (d :: rest₃)
            | some w => .char (Char.ofNat ((a.toNat - 0xF0) * 262144 + y * 4096 + z * 64 + w)) :: pieces rest₃
    else .illFormed 1 :: pieces rest

/-- Where a byte string stops being UTF-8: after `start` bytes, for the `width` bytes of an ill-formed part, or
because it ends within a character. -/
structure Fault where
  start : Nat
  width : Option Nat
deriving DecidableEq

def Fault.message : Fault → String
  | ⟨start, some width⟩ => s!"invalid utf-8 sequence of {width} bytes from index {start}"
  | ⟨start, none⟩ => s!"incomplete utf-8 byte sequence from index {start}"

/-- The characters before the first ill-formed part, which is a fault. -/
def decodeFrom (start : Nat) : List Piece → Except Fault (List Char)
  | [] => .ok []
  | .char c :: rest => do return c :: (← decodeFrom (start + c.utf8Size) rest)
  | .illFormed width :: _ => .error ⟨start, some width⟩
  | .cutShort :: _ => .error ⟨start, none⟩

def decode (bytes : List UInt8) : Except Fault String :=
  String.ofList <$> decodeFrom 0 (pieces bytes)

def Piece.shown : Piece → Char
  | .char c => c
  | _ => '\uFFFD'

def decodeLossy (bytes : List UInt8) : String :=
  String.ofList ((pieces bytes).map Piece.shown)

/-- A short text for a byte string in messages: its first sixteen bytes in quotes, and its length if it is
longer. -/
def preview (bytes : List UInt8) : String :=
  let shown := decodeLossy (bytes.take 16)
  if bytes.length ≤ 16 then s!"\"{shown}\"" else s!"\"{shown}\"... ({bytes.length} bytes)"

end Ragged.Utf8

import Ragged.Dataset
import Ragged.Options
import Ragged.Pointer.Codec
import Ragged.Text.Utf8
import Ragged.Tiling

/-!
# Reading arrays

Pointers are read block by block, and each is followed into the heap. A pointer that leads out of the heap fails
the whole reading, with the place of its element. The memory for what is answered is assumed, whatever its size.

A reader of the heap knows its size from when it was made. A pointer that reaches beyond it is refused before any
byte is fetched.
-/

namespace Ragged

/-! ## The heap -/

structure HeapReader where
  size : Nat
  fetch : Slab → Outcome (List UInt8)

namespace HeapReader

def ofView (v : View UInt8) : HeapReader := ⟨v.shape.size, v.read⟩

def read (r : HeapReader) (p : Pointer) : Outcome (List UInt8) := do
  let (start, stop) ← p.checkWithin r.size
  if start < stop then r.fetch (Slab.range start p.length.toNat) else return []

def readRange (r : HeapReader) (offset length : UInt64) : Outcome (List UInt8) := r.read ⟨offset, length⟩

end HeapReader

/-! ## Arrays -/

variable {σ α : Type}

/-- Visits every pointer with its number, block by block. -/
def forEachPointer (budget : Nat) (pointers : View Pointer) (visit : Nat → Pointer → Action σ Unit) :
    Action σ Unit := do
  let tiling ← Tiling.planned pointers.shape.dims pointers.layout.chunk? budget
  let slabs ← tiling.toList
  Action.forEach (fun slab => do
    let ps ← pointers.read slab
    Codec.decodeSlab pointers.shape slab ps visit) slabs

def fillSlot (flat : Nat) (a : α) : Action (Array α) Unit := fun slots =>
  if flat < slots.size then (.ok (), slots.setIfInBounds flat a)
  else (.fail (.outOfBounds flat 0 slots.size), slots)

def forPointers [Inhabited α] (budget : Nat) (pointers : View Pointer) (value : Nat → Pointer → Outcome α) :
    Outcome (List α) :=
  let visit flat p : Action (Array α) Unit := do fillSlot flat (← value flat p)
  let (done, slots) := forEachPointer budget pointers visit (Array.replicate pointers.shape.size default)
  done >>= fun _ => .ok slots.toList

def readPointers (o : ReadOptions) (pointers : View Pointer) : Outcome (List Pointer) :=
  forPointers o.elementBudget.toNat pointers fun _ p => .ok p

/-- The content that the pointer of an element names, trimmed. -/
def resolve (o : ReadOptions) (s : Shape) (heap : HeapReader) (flat : Nat) (p : Pointer) : Outcome (List UInt8) := do
  return o.trim.apply (← (heap.read p).withContext (Codec.locate s flat))

def readArray (o : ReadOptions) (pointers : View Pointer) (heap : View UInt8) : Outcome (List (List UInt8)) :=
  forPointers o.elementBudget.toNat pointers (resolve o pointers.shape (HeapReader.ofView heap))

/-- Decodes contents as texts. The first of them is the element with the number `flat`. -/
def decodeTexts (s : Shape) (flat : Nat) : List (List UInt8) → Outcome (List String)
  | [] => .ok []
  | content :: contents =>
    match Utf8.decode content with
    | .ok text => do return text :: (← decodeTexts s (flat + 1) contents)
    | .error fault =>
      let place := Codec.locate s flat
      .fail (.invalidArgument s!"{place} is not valid UTF-8: {fault.message} in {Utf8.preview content}")

def readStrings (o : ReadOptions) (pointers : View Pointer) (heap : View UInt8) : Outcome (List String) := do
  decodeTexts pointers.shape 0 (← readArray o pointers heap)

def readElement (o : ReadOptions) (pointers : View Pointer) (heap : View UInt8) (coord : List Nat) :
    Outcome (List UInt8) := do
  let flat ← pointers.shape.flatIndex coord
  match ← pointers.read (Slab.element coord) with
  | [] => .fail (.corruption s!"no pointer record for {Codec.locate pointers.shape flat}")
  | p :: _ => resolve o pointers.shape (HeapReader.ofView heap) flat p

end Ragged

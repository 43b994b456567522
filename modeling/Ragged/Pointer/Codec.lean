import Ragged.Pointer.Basic
import Ragged.Slab.Indices

/-!
# Pointers of a slab

Pointers are stored in the shape of the array they describe, and are numbered as its elements are. `encodeSlab`
picks the pointers of one slab out of the offsets and lengths of the whole array; `decodeSlab` gives every pointer
read from a slab back with its number.
-/

namespace Ragged.Codec

def flatIndices (s : Shape) (slab : Slab) : Outcome Indices := do
  slab.checkWithin s
  Indices.ofSlab s.strides slab

def checkCount (s : Shape) (what : String) (count : Nat) : Outcome Unit :=
  Outcome.require (count = s.size) (.shapeMismatch s!"{s.size} {what} for array {s.render}" s!"{count} {what}")

def pointerAt (s : Shape) (offsets lengths : List UInt64) (flat : Nat) : Outcome Pointer :=
  match offsets[flat]?, lengths[flat]? with
  | some offset, some length => .ok ⟨offset, length⟩
  | _, _ => .fail (.outOfBounds flat 0 s.size)

def encodeSlab (s : Shape) (slab : Slab) (offsets lengths : List UInt64) : Outcome (List Pointer) := do
  checkCount s "offsets" offsets.length
  checkCount s "lengths" lengths.length
  let indices ← (← flatIndices s slab).toList
  indices.mapM (pointerAt s offsets lengths)

/-- Pairs every pointer of a slab with its number. -/
def pairs (s : Shape) (slab : Slab) (pointers : List Pointer) : Outcome (List (Nat × Pointer)) := do
  let it ← flatIndices s slab
  Outcome.require (it.remaining = pointers.length)
    (.shapeMismatch s!"{it.remaining} records for slab {slab.render}" s!"{pointers.length} records")
  return (← it.toList).zip pointers

/-- Visits every pointer of a slab with its number, up to the first failure. -/
def decodeSlab {σ : Type} (s : Shape) (slab : Slab) (pointers : List Pointer)
    (visit : Nat → Pointer → Action σ Unit) : Action σ Unit := do
  let ps ← pairs s slab pointers
  Action.forEach (fun (flat, p) => visit flat p) ps

def locate (s : Shape) (flat : Nat) : String :=
  match s.unravel flat with
  | .ok coord => s!"flat index {flat} at coordinate {Text.coordinate coord}"
  | _ => s!"flat index {flat}"

theorem locate_eq {s : Shape} {flat : Nat} {coord : List Nat} (h : s.unravel flat = .ok coord) :
    locate s flat = s!"flat index {flat} at coordinate {Text.coordinate coord}" := by
  rw [locate, h]

end Ragged.Codec

import Ragged.Slab.Basic

/-!
# Flat indices of a slab

The numbers of the elements of a slab, in the order of its coordinates. An odometer keeps a position for every
dimension beside the number of the element it stands on: a step moves the fastest position, and a position that
reaches its count goes back to zero and carries into the next slower one.
-/

namespace Ragged

namespace Slab

/-- The number of the first element of a slab, over the strides of the array it lies in. -/
def startIndex (strides starts : List Nat) : Outcome Nat := Word.dot strides starts

end Slab

structure Indices where
  strides : List Nat
  counts : List Nat
  positions : List Nat
  current : Nat
  remaining : Nat
deriving DecidableEq

namespace Indices

def ofSlab (strides : List Nat) (slab : Slab) : Outcome Indices :=
  if strides.length = slab.rank then do
    let current ← Slab.startIndex strides slab.starts
    return ⟨strides, slab.counts, List.replicate slab.rank 0, current, slab.size⟩
  else .fail (.shapeMismatch s!"rank {strides.length}" s!"slab {slab.render}")

/-- Steps the odometer over positions, counts and strides. The last part of the answer tells whether the
slowest of these positions carried. -/
def turn (current : Nat) : List Nat → List Nat → List Nat → Outcome (List Nat × Nat × Bool)
  | position :: positions, count :: counts, stride :: strides => do
    let (positions, current, carried) ← turn current positions counts strides
    if carried then
      let position ← Word.add position 1
      let current ← Word.add current stride
      if position < count then return (position :: positions, current, false)
      let current ← Word.sub current (← Word.mul stride count)
      return (0 :: positions, current, true)
    else return (position :: positions, current, false)
  | _, _, _ => return ([], current, true)

/-- The least and the most indices that may follow. -/
def sizeHint (it : Indices) : Nat × Option Nat := (it.remaining, some it.remaining)

def step (it : Indices) : Outcome Indices := do
  let (positions, current, _) ← turn it.current it.positions it.counts it.strides
  return { it with positions, current }

def next (it : Indices) : Outcome (Option Nat × Indices) :=
  match it.remaining with
  | 0 => .ok (none, it)
  | 1 => .ok (some it.current, { it with remaining := 0 })
  | n + 2 => do
    let stepped ← step { it with remaining := n + 1 }
    return (some it.current, stepped)

/-- The next indices, at most `n` of them, and what is left. -/
def take : Nat → Indices → Outcome (List Nat × Indices)
  | 0, it => .ok ([], it)
  | n + 1, it => do
    match ← it.next with
    | (none, it) => return ([], it)
    | (some index, it) =>
      let (indices, it) ← take n it
      return (index :: indices, it)

def toList (it : Indices) : Outcome (List Nat) := do
  let (indices, _) ← it.take it.remaining
  return indices

end Indices

end Ragged

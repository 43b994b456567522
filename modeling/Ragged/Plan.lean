import Ragged.Shape

/-!
# Block plans

An array is streamed in blocks. A block starts as one chunk, cut to the array, and is grown from the fastest
dimension on by whole chunks while it stays within a budget of elements. Growth ends at the first dimension in
which not even two chunks fit.
-/

namespace Ragged.Plan

/-- Cuts a chunk to the extents of the array. A chunk without cells covers no extent but zero. -/
def clamp (chunk : List Nat) : List Nat → List Nat → Outcome (List Nat)
  | b :: bs, d :: ds =>
    if b = 0 ∧ d ≠ 0 then .fail (.invalidArgument s!"chunk shape {Text.extents chunk} has a zero extent")
    else do return min b d :: (← clamp chunk bs ds)
  | _, _ => .ok []

/-- Grows a block of `size` elements. Answers with the grown block, its size, and whether growth has ended. -/
def grow (budget size : Nat) : List Nat → List Nat → Outcome (List Nat × Nat × Bool)
  | b :: bs, d :: ds => do
    let (bs, size, ended) ← grow budget size bs ds
    if ended then return (b :: bs, size, true)
    let multiple ← Word.div budget size
    if multiple ≤ 1 then return (b :: bs, size, true)
    let scaled := min d (Word.satMul b multiple)
    let size ← Word.mul (← Word.div size b) scaled
    return (scaled :: bs, size, false)
  | _, _ => return ([], size, false)

/-- The chunk a plan starts from: single elements where the array is not chunked. -/
def start (chunk : Option (List Nat)) (full : List Nat) : Outcome (List Nat) :=
  match chunk with
  | none => .ok (List.replicate full.length 1)
  | some chunk =>
    if chunk.length = full.length then .ok chunk
    else .fail (.shapeMismatch s!"chunk rank {full.length}" s!"chunk rank {chunk.length}")

/-- The shape of the blocks in which an array is streamed, all zero if the array has no elements. -/
def block (chunk : Option (List Nat)) (full : List Nat) (budget : Nat) : Outcome (List Nat) := do
  let base ← start chunk full
  let base ← clamp (chunk.getD []) base full
  let size := base.foldl Word.satMul 1
  if size = 0 then return List.replicate full.length 0
  let (grown, _, _) ← grow budget size base full
  return grown

end Ragged.Plan

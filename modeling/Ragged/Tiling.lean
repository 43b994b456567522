import Ragged.Plan
import Ragged.Slab.Basic

/-!
# Tilings

A walk over an array block by block, the fastest dimension first. Every slab of the walk has the shape of a block,
cut at the far edge of the array.
-/

namespace Ragged

structure Tiling where
  full : List Nat
  block : List Nat
  current : Option Slab
deriving DecidableEq

namespace Tiling

/-- No elements to walk over, or blocks without extent in any dimension. -/
def isVoid (full block : List Nat) : Bool :=
  full.contains 0 || (!block.isEmpty && block.all (· == 0))

def countsAt : List Nat → List Nat → List Nat → Outcome (List Nat)
  | start :: starts, b :: block, f :: full => do
    let room ← Word.sub f start
    return min b room :: (← countsAt starts block full)
  | _, _, _ => .ok []

def slabAt (full block starts : List Nat) : Outcome Slab := do
  let counts ← countsAt starts block full
  return ⟨starts, counts, ← Word.product counts⟩

def ofBlock (full block : List Nat) : Outcome Tiling := do
  let _ ← Shape.ofDims full
  Outcome.require (full.length = block.length)
    (.shapeMismatch s!"block rank {full.length}" s!"block rank {block.length}")
  if isVoid full block then return ⟨full, block, none⟩
  Outcome.require (¬ block.contains 0)
    (.invalidArgument s!"block {Text.extents block} cannot cover array {Text.extents full}")
  return ⟨full, block, some (← slabAt full block (List.replicate full.length 0))⟩

def planned (full : List Nat) (chunk : Option (List Nat)) (budget : Nat) : Outcome Tiling := do
  ofBlock full (← Plan.block chunk full budget)

def finished (t : Tiling) : Bool := t.current.isNone

def currentSize (t : Tiling) : Nat := t.current.elim 0 Slab.size

/-- Moves on to the next block, and tells whether there was one. -/
def nextStarts : List Nat → List Nat → List Nat → Outcome (List Nat × Bool)
  | start :: starts, b :: block, f :: full => do
    let (starts, moved) ← nextStarts starts block full
    if moved then return (start :: starts, true)
    if b < (← Word.sub f start) then return ((← Word.add start b) :: starts, true)
    return (0 :: starts, false)
  | _, _, _ => .ok ([], false)

def successor (t : Tiling) (slab : Slab) : Outcome (Option Slab) := do
  let (starts, moved) ← nextStarts slab.starts t.block t.full
  if moved then return some (← slabAt t.full t.block starts)
  return none

def next (t : Tiling) : Outcome (Option Slab × Tiling) :=
  match t.current with
  | none => .ok (none, t)
  | some slab => do return (some slab, { t with current := ← t.successor slab })

def advance (t : Tiling) : Outcome Tiling := do
  let (_, t) ← t.next
  return t

def slabCount (t : Tiling) : Outcome Nat :=
  if isVoid t.full t.block then .ok 0
  else do Word.product (← (t.full.zip t.block).mapM fun (f, b) => Word.ceilDiv f b)

/-- The number of slabs before the one at a coordinate, and the number of slabs of a whole walk. -/
def rankOf : List Nat → List Nat → List Nat → Outcome (Nat × Nat)
  | start :: starts, f :: full, b :: block => do
    let (before, total) ← rankOf starts full block
    let before ← Word.add before (← Word.mul (← Word.div start b) total)
    return (before, ← Word.mul total (← Word.ceilDiv f b))
  | _, _, _ => .ok (0, 1)

def remaining (t : Tiling) : Outcome Nat :=
  match t.current with
  | none => .ok 0
  | some slab => do
    let (before, total) ← rankOf slab.starts t.full t.block
    Word.sub total before

def sizeHint (t : Tiling) : Outcome (Nat × Option Nat) := do
  let n ← t.remaining
  return (n, some n)

def take : Nat → Tiling → Outcome (List Slab)
  | 0, _ => .ok []
  | n + 1, t => do
    match ← t.next with
    | (none, _) => return []
    | (some slab, t) => return slab :: (← take n t)

def toList (t : Tiling) : Outcome (List Slab) := do
  t.take (← t.remaining)

end Tiling

end Ragged

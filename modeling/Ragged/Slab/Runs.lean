import Ragged.Slab.Basic

/-!
# Runs

A slab of a chunked array is read and written in runs: stretches along the fastest dimension that stay inside one
chunk. The runs of a slab come in the order of its coordinates.
-/

namespace Ragged

/-- `length` cells of a chunk, from `offset` on. -/
structure Run where
  chunk : List Nat
  offset : Nat
  length : Nat
deriving DecidableEq

namespace Run

/-- Cuts the coordinates from `pos` to `stop` of one row where chunks of the given extent end. -/
def cut (extent stride stop : Nat) : Nat → Nat → Outcome (List Run)
  | 0, pos => if pos < stop then .trap else .ok []
  | fuel + 1, pos =>
    if pos < stop then do
      let key ← Word.div pos extent
      let chunkEnd := Word.satMul (← Word.add key 1) extent
      let length ← Word.sub (min chunkEnd stop) pos
      let offset ← Word.mul (← Word.mod pos extent) stride
      let rest ← cut extent stride stop fuel (← Word.add pos length)
      return ⟨[key], offset, length⟩ :: rest
    else .ok []

/-- The run of a slower dimension's coordinate `c`, from a run of the faster dimensions. -/
def under (extent stride c : Nat) (r : Run) : Outcome Run := do
  let key ← Word.div c extent
  let offset ← Word.add (← Word.mul (← Word.mod c extent) stride) r.offset
  return ⟨key :: r.chunk, offset, r.length⟩

/-- The runs of a box over the extents and strides of a chunk. -/
def ofBox : List Nat → List Nat → List Nat → List Nat → Outcome (List Run)
  | [start], [count], [extent], [stride] => do
    cut extent stride (← Word.add start count) count start
  | start :: starts, count :: counts, extent :: extents, stride :: strides => do
    let _ ← Word.add start count
    let inner ← ofBox starts counts extents strides
    let rows ← (List.range' start count).mapM fun c => inner.mapM (under extent stride c)
    return rows.flatten
  | _, _, _, _ => .ok [⟨[], 0, 1⟩]

end Run

/-- The runs of a slab in an array of chunks. A slab without elements has none. -/
def Slab.runs (chunk : List Nat) (slab : Slab) : Outcome (List Run) :=
  if slab.size = 0 then .ok []
  else do
    let shape ← Shape.ofDims chunk
    Run.ofBox slab.starts slab.counts chunk shape.strides

end Ragged

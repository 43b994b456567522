import Ragged.Layout
import Ragged.Slab.Runs

/-!
# Chunked stores

The elements of one dataset, kept in whole chunks. A chunk takes room when it is first written; elements that were
never written have the default value. A store without chunks of its own keeps all elements in one chunk.

Memory is assumed throughout: the cells of a chunk and the values that are read can always be allocated, however many
they are.
-/

namespace Ragged

structure Store (α : Type) where
  shape : Shape
  layout : Layout
  extensible : Bool
  chunkShape : List Nat
  /-- The number of cells of a chunk. -/
  chunkLen : Nat
  /-- The chunks that were written, under their coordinates in the grid of chunks. -/
  chunks : List (List Nat × Array α)

namespace Store

variable {α : Type}

def create (shape : Shape) (layout : Layout) (extensible : Bool) : Outcome (Store α) := do
  let chunkShape := layout.chunk?.getD (shape.dims.map (max · 1))
  Outcome.require (chunkShape.length = shape.rank)
    (.shapeMismatch s!"chunk rank {shape.rank}" s!"chunk rank {chunkShape.length}")
  let chunk ← Shape.ofDims chunkShape
  return ⟨shape, layout, extensible, chunkShape, chunk.size, []⟩

def allocatedChunks (s : Store α) : Nat := s.chunks.length

/-- Puts cells in the place of others, from `offset` on. -/
def overwrite (cells : Array α) (offset : Nat) : List α → Array α
  | [] => cells
  | v :: vs => overwrite (cells.setIfInBounds offset v) (offset + 1) vs

def setChunk (key : List Nat) (cells : Array α) : List (List Nat × Array α) → List (List Nat × Array α)
  | [] => [(key, cells)]
  | (k, old) :: chunks => if k = key then (key, cells) :: chunks else (k, old) :: setChunk key cells chunks

variable [Inhabited α]

def readRun (s : Store α) (r : Run) : Outcome (List α) :=
  match s.chunks.lookup r.chunk with
  | none => .ok (List.replicate r.length default)
  | some cells =>
    if r.offset + r.length ≤ cells.size then .ok (cells.extract r.offset (r.offset + r.length)).toList else .trap

def read (s : Store α) (slab : Slab) : Outcome (List α) := do
  slab.checkWithin s.shape
  let parts ← (← slab.runs s.chunkShape).mapM s.readRun
  return parts.flatten

/-- Writes one run, in a new chunk if its chunk was never written. -/
def writeRun (s : Store α) (r : Run) (values : List α) : Outcome (Store α) :=
  let cells := (s.chunks.lookup r.chunk).getD (Array.replicate s.chunkLen default)
  if values.length = r.length ∧ r.offset + r.length ≤ cells.size then
    .ok { s with chunks := setChunk r.chunk (overwrite cells r.offset values) s.chunks }
  else .trap

def writeRuns (s : Store α) : List Run → List α → Outcome (Store α)
  | [], _ => .ok s
  | r :: runs, values => do
    let s ← s.writeRun r (values.take r.length)
    s.writeRuns runs (values.drop r.length)

/-- Writes the elements of a slab of the given shape, in the order of its coordinates. -/
def writeWithin (s : Store α) (shape : Shape) (slab : Slab) (values : List α) : Outcome (Store α) := do
  slab.checkWithin shape
  Outcome.require (slab.size = values.length) (.shapeMismatch s!"{slab.size} values" s!"{values.length} values")
  s.writeRuns (← slab.runs s.chunkShape) values

def write (s : Store α) (slab : Slab) (values : List α) : Outcome (Store α) :=
  s.writeWithin s.shape slab values

/-- Grows a store of one dimension. Its shape changes only after the values are written. -/
def append (s : Store α) (values : List α) : Outcome (Store α) :=
  match Word.add? s.shape.size values.length with
  | none => .fail (.invalidArgument s!"cannot grow {s.shape.size} elements past {Word.last}")
  | some stop => do
    let grown ← Shape.ofDims [stop]
    let s ← s.writeWithin grown (Slab.range s.shape.size values.length) values
    return { s with shape := grown }

end Store

end Ragged

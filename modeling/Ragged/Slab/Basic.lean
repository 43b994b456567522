import Ragged.Shape

/-!
# Slabs

A slab is a box of coordinates, given in every dimension by where it starts and how many coordinates it takes.
`checkWithin` decides whether it lies inside a shape.
-/

namespace Ragged

structure Slab where
  starts : List Nat
  counts : List Nat
  size : Nat
deriving DecidableEq

namespace Slab

/-- The product of counts, taken from the first, if all products on the way are words. -/
def size? : List Nat → Option Nat :=
  List.foldlM Word.mul? 1

def ofCounts (starts counts : List Nat) : Outcome Slab :=
  if starts.length = counts.length then
    match size? counts with
    | some size => .ok ⟨starts, counts, size⟩
    | none => .fail (.invalidArgument s!"slab counts {Text.extents counts} overflow a u64")
  else .fail (.shapeMismatch s!"{starts.length} counts" s!"{counts.length} counts")

def whole (s : Shape) : Slab := ⟨List.replicate s.rank 0, s.dims, s.size⟩

def element (coord : List Nat) : Slab := ⟨coord, List.replicate coord.length 1, 1⟩

def range (start count : Nat) : Slab := ⟨[start], [count], count⟩

def rank (slab : Slab) : Nat := slab.starts.length

def isEmpty (slab : Slab) : Bool := slab.size == 0

/-- Where a slab starts and stops in every dimension: `[1..3, 0..3]`. -/
def render (slab : Slab) : String :=
  let spans := List.zipWith (fun start count => s!"{start}..{Word.satAdd start count}") slab.starts slab.counts
  s!"[{Text.commas spans}]"

/-- The coordinates of a box, the last one varying fastest. -/
def coordsOf : List Nat → List Nat → List (List Nat)
  | start :: starts, count :: counts =>
    (List.range' start count).flatMap fun c => (coordsOf starts counts).map (c :: ·)
  | _, _ => [[]]

def coords (slab : Slab) : List (List Nat) := coordsOf slab.starts slab.counts

def checkDims (slab : Slab) : List Nat → List Nat → List Nat → Outcome Unit
  | start :: starts, count :: counts, extent :: extents =>
    match Word.add? start count with
    | none => .fail (.invalidArgument s!"slab {slab.render} overflows a u64")
    | some stop => if stop ≤ extent then checkDims slab starts counts extents else .fail (.outOfBounds stop 0 extent)
  | _, _, _ => .ok ()

def checkWithin (slab : Slab) (s : Shape) : Outcome Unit :=
  if slab.rank = s.rank then checkDims slab slab.starts slab.counts s.dims
  else .fail (.shapeMismatch s!"rank {s.rank}" s!"slab {slab.render}")

end Slab

end Ragged

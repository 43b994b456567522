import Ragged.Word

/-!
# Shapes

The extents of an array, from the slowest varying dimension to the fastest, with the stride of every dimension:
the product of the extents that vary faster. Elements are numbered in the order in which the last coordinate
varies fastest. `flatIndex` numbers a coordinate and `unravel` finds the coordinate of a number.
-/

namespace Ragged

namespace Text

def commas (items : List String) : String := ", ".intercalate items

def numbers (ns : List Nat) : String := commas (ns.map toString)

/-- Extents as they are shown: `[2, 3]`. -/
def extents (ns : List Nat) : String := s!"[{numbers ns}]"

/-- A coordinate as it is shown: `(1, 2)`. -/
def coordinate (ns : List Nat) : String := s!"({numbers ns})"

end Text

structure Shape where
  dims : List Nat
  strides : List Nat
  size : Nat
deriving DecidableEq, Inhabited

namespace Shape

/-- The strides of the extents and the number of elements, if all products are words. -/
def strides? : List Nat → Option (List Nat × Nat)
  | [] => some ([], 1)
  | d :: ds => do
    let (strides, stride) ← strides? ds
    let size ← Word.mul? stride d
    return (stride :: strides, size)

def ofDims (dims : List Nat) : Outcome Shape :=
  match strides? dims with
  | some (strides, size) => .ok ⟨dims, strides, size⟩
  | none => .fail (.invalidArgument s!"shape {Text.extents dims} has more elements than fit in a u64")

def scalar : Shape := ⟨[], [], 1⟩

def rank (s : Shape) : Nat := s.dims.length

def isScalar (s : Shape) : Bool := s.dims.isEmpty

def isEmpty (s : Shape) : Bool := s.size == 0

def render (s : Shape) : String := Text.extents s.dims

def contains (s : Shape) (coord : List Nat) : Bool :=
  coord.length == s.rank && (coord.zip s.dims).all fun (c, d) => c < d

/-- Adds the steps of a coordinate to `acc`, over extents and strides. -/
def flatFrom (acc : Nat) : List Nat → List Nat → List Nat → Outcome Nat
  | c :: cs, d :: ds, stride :: strides =>
    if c < d then do flatFrom (← Word.add acc (← Word.mul c stride)) cs ds strides
    else .fail (.outOfBounds c 0 d)
  | _, _, _ => .ok acc

def flatIndex (s : Shape) (coord : List Nat) : Outcome Nat :=
  if coord.length = s.rank then flatFrom 0 coord s.dims s.strides
  else .fail (.shapeMismatch s!"rank {s.rank}" s!"coordinate {Text.coordinate coord}")

def unravelOver (flat : Nat) : List Nat → Outcome (List Nat)
  | [] => .ok []
  | stride :: strides => do
    let c ← Word.div flat stride
    let rest ← unravelOver (← Word.mod flat stride) strides
    return c :: rest

def unravel (s : Shape) (flat : Nat) : Outcome (List Nat) :=
  if flat < s.size then unravelOver flat s.strides else .fail (.outOfBounds flat 0 s.size)

end Shape

end Ragged

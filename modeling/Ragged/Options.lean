import Ragged.Layout

/-!
# Options

What a caller may choose for writing and for reading an array. Content written in fields of a fixed width ends at its
first zero byte: `Trim` tells whether it is cut there when it is read.
-/

namespace Ragged

/-- The bytes before the first zero byte. -/
def trimAtNul (content : List UInt8) : List UInt8 := content.takeWhile (· ≠ 0)

inductive Trim where
  | keep
  | nul
deriving DecidableEq, Inhabited

def Trim.apply : Trim → List UInt8 → List UInt8
  | .keep, content => content
  | .nul, content => trimAtNul content

/-- The number of pointers held in memory at once, unless a caller chooses it. -/
def defaultElementBudget : UInt64 := 1048576

structure WriteOptions where
  /-- The most pointers held in memory at once. -/
  elementBudget : UInt64 := defaultElementBudget
  /-- The bytes gathered before they are appended to the heap. -/
  flushThreshold : UInt64 := 4194304
  /-- The chunks of the pointers, if they are compressed. -/
  chunkShape : List UInt64 := []
  /-- The level at which pointers and heap are compressed, or zero. -/
  compressionLevel : UInt8 := 0
  /-- The chunk length of the heap, unless the container chooses it. -/
  heapChunkLen : Option UInt64 := none
deriving DecidableEq

structure ReadOptions where
  /-- The most pointers held in memory at once. -/
  elementBudget : UInt64 := defaultElementBudget
  trim : Trim := .keep
deriving DecidableEq

instance : Inhabited WriteOptions := ⟨{}⟩

instance : Inhabited ReadOptions := ⟨{}⟩

def WriteOptions.pointerConfig (o : WriteOptions) (s : Shape) : DatasetConfig :=
  if s.isScalar then { scalar := true }
  else
    { dimensions := s.dims.map UInt64.ofNat
      chunkShape := o.chunkShape
      compressionLevel := o.compressionLevel }

end Ragged

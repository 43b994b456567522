import Ragged.Shape

/-!
# Layouts

How a dataset lies in its container: as one piece, or in chunks of one shape that pass through filters. A
`DatasetConfig` asks for a dataset; `shape` and `layout` say what it asks for, or why it cannot be had.
-/

namespace Ragged

inductive ChunkFilter where
  | shuffle
  | deflate (level : UInt8)
deriving DecidableEq, Inhabited

def ChunkFilter.render : ChunkFilter → String
  | .shuffle => "shuffle"
  | .deflate level => s!"deflate({level})"

inductive Layout where
  | contiguous
  | chunked (chunk : List UInt64) (filters : List ChunkFilter)
deriving DecidableEq, Inhabited

namespace Layout

/-- The extents of a chunk, if the dataset is chunked. -/
def chunk? : Layout → Option (List Nat)
  | contiguous => none
  | chunked chunk _ => some (chunk.map UInt64.toNat)

def filters : Layout → List ChunkFilter
  | contiguous => []
  | chunked _ filters => filters

def render : Layout → String
  | contiguous => "contiguous"
  | chunked chunk filters =>
    s!"chunked({Text.extents (chunk.map UInt64.toNat)}, [{Text.commas (filters.map ChunkFilter.render)}])"

end Layout

/-- The shape, chunks and compression asked for. The shape of a scalar is fixed, whatever the extents say. -/
structure DatasetConfig where
  dimensions : List UInt64 := []
  chunkShape : List UInt64 := []
  compressionLevel : UInt8 := 0
  scalar : Bool := false
deriving DecidableEq, Inhabited

namespace DatasetConfig

def maxLevel : UInt8 := 9

def shape (c : DatasetConfig) : Outcome Shape :=
  if c.scalar then .ok Shape.scalar else Shape.ofDims (c.dimensions.map UInt64.toNat)

/-- The layout asked for. Only a compressed dataset is chunked. -/
def layout (c : DatasetConfig) : Outcome Layout :=
  let chunk := Text.extents (c.chunkShape.map UInt64.toNat)
  if c.scalar then .ok .contiguous
  else if c.chunkShape ≠ [] ∧ c.chunkShape.length ≠ c.dimensions.length then
    .fail (.shapeMismatch s!"chunk shape of rank {c.dimensions.length}" chunk)
  else if c.compressionLevel = 0 then .ok .contiguous
  else if maxLevel < c.compressionLevel then
    .fail (.invalidArgument s!"compression level {c.compressionLevel} exceeds the maximum of {maxLevel}")
  else if c.chunkShape = [] then .fail (.invalidArgument "a compressed dataset needs a chunk shape")
  else if c.chunkShape.contains 0 then .fail (.invalidArgument s!"chunk shape {chunk} has a zero extent")
  else .ok (.chunked c.chunkShape [.shuffle, .deflate c.compressionLevel])

end DatasetConfig

end Ragged

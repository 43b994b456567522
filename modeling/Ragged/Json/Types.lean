import Ragged.Json.Form
import Ragged.Options
import Ragged.Pointer.Basic

/-!
# JSON forms of options, configurations and pointers

Options and configurations may leave out fields, which then have their default values. Pointers and the chunks of a
layout need all of theirs.
-/

namespace Ragged

open Json Form

def Pointer.form : Form Pointer :=
  record
    [field "offset" word Pointer.offset fun v p => { p with offset := v },
     field "length" word Pointer.length fun v p => { p with length := v }]
    false default

def Trim.form : Form Trim where
  write
    | .keep => quoted "keep"
    | .nul => quoted "nul"
  read := readChoice [.plain "keep" .keep, .plain "nul" .nul]

def ChunkFilter.form : Form ChunkFilter where
  write
    | .shuffle => quoted "Shuffle"
    | .deflate level => writeChoice "Deflate" (byte.write level)
  read := readChoice [.plain "Shuffle" .shuffle, .carrying "Deflate" fun s => do
    let (level, s) ← byte.read s
    return (.deflate level, s)]

def Layout.chunkedForm : Form (List UInt64 × List ChunkFilter) :=
  record
    [field "chunk_shape" (list word) Prod.fst fun v p => (v, p.2),
     field "filters" (list ChunkFilter.form) Prod.snd fun v p => (p.1, v)]
    false ([], [])

def Layout.form : Form Layout where
  write
    | .contiguous => quoted "Contiguous"
    | .chunked chunk filters => writeChoice "Chunked" (chunkedForm.write (chunk, filters))
  read := readChoice [.plain "Contiguous" .contiguous, .carrying "Chunked" fun s => do
    let ((chunk, filters), s) ← chunkedForm.read s
    return (.chunked chunk filters, s)]

def DatasetConfig.form : Form DatasetConfig :=
  record
    [field "dimensions" (list word) DatasetConfig.dimensions fun v c => { c with dimensions := v },
     field "chunk_shape" (list word) DatasetConfig.chunkShape fun v c => { c with chunkShape := v },
     field "compression_level" byte DatasetConfig.compressionLevel fun v c => { c with compressionLevel := v },
     field "scalar" bool DatasetConfig.scalar fun v c => { c with scalar := v }]
    true {}

def WriteOptions.form : Form WriteOptions :=
  record
    [field "element_budget" word WriteOptions.elementBudget fun v o => { o with elementBudget := v },
     field "flush_threshold" word WriteOptions.flushThreshold fun v o => { o with flushThreshold := v },
     field "chunk_shape" (list word) WriteOptions.chunkShape fun v o => { o with chunkShape := v },
     field "compression_level" byte WriteOptions.compressionLevel fun v o => { o with compressionLevel := v },
     field "heap_chunk_len" (option word) WriteOptions.heapChunkLen fun v o => { o with heapChunkLen := v }]
    true {}

def ReadOptions.form : Form ReadOptions :=
  record
    [field "element_budget" word ReadOptions.elementBudget fun v o => { o with elementBudget := v },
     field "trim" Trim.form ReadOptions.trim fun v o => { o with trim := v }]
    true {}

/-- Reads options from JSON. Fields that are missing have their default values. -/
def WriteOptions.ofJson (text : String) (words : JsonWords := fun _ _ => "") : Outcome WriteOptions :=
  match WriteOptions.form.parse text words with
  | .ok o => .ok o
  | .error refusal => .fail (.json refusal)

/-- Reads options from JSON. Fields that are missing have their default values. -/
def ReadOptions.ofJson (text : String) (words : JsonWords := fun _ _ => "") : Outcome ReadOptions :=
  match ReadOptions.form.parse text words with
  | .ok o => .ok o
  | .error refusal => .fail (.json refusal)

end Ragged

import Ragged.Dataset
import Ragged.Options
import Ragged.Pointer.Codec
import Ragged.Tiling

/-!
# Writing arrays

The contents of an array are appended to the heap back to back, in the order of the elements. Then the pointers to
them are written block by block.

A writer gathers bytes and appends them to a sink in portions of `threshold` bytes, cutting contents where a portion
is full; only the last portion may be smaller. With threshold zero nothing is gathered. A failed append leaves the
gathered bytes where they are, for the next attempt. The memory for gathered bytes is assumed, whatever the threshold.
-/

namespace Ragged

variable {σ : Type}

/-! ## Sinks -/

/-- What bytes are appended to. The state of a sink tells how many bytes it holds, and appending may fail. -/
structure Sink (σ : Type) where
  size : σ → Nat
  append : List UInt8 → Action σ Unit

/-- A sink with the sizes of all appends to it, failed ones too. -/
structure Observed (σ : Type) where
  sink : σ
  appends : List Nat

namespace Sink

def dataset : Sink (Dataset UInt8) := ⟨Dataset.size, Dataset.append⟩

/-- Notes all appends and fails those whose number, from zero, is chosen. A failed append leaves the sink as it
was. -/
def observed (sink : Sink σ) (fails : Nat → Bool) : Sink (Observed σ) where
  size s := sink.size s.sink
  append bytes s :=
    let appends := s.appends ++ [bytes.length]
    if fails s.appends.length then (.fail (.invalidArgument "injected failure"), { s with appends })
    else
      let (x, inner) := sink.append bytes s.sink
      (x, ⟨inner, appends⟩)

end Sink

/-! ## The heap -/

/-- Contents that lie back to back in the heap: where the first starts, and the length of each. -/
structure HeapSpan where
  start : UInt64
  lengths : List UInt64
deriving DecidableEq

namespace HeapSpan

def offsets (span : HeapSpan) : Outcome (List UInt64) := Pointer.offsetsFrom span.start span.lengths

end HeapSpan

structure HeapWriter (σ : Type) where
  sink : σ
  buffer : List UInt8

namespace HeapWriter

variable (S : Sink σ) (threshold : Nat)

/-- The size of the heap once all gathered bytes are appended. -/
def size (w : HeapWriter σ) : Outcome Nat := Word.add (S.size w.sink) w.buffer.length

def flush : Action (HeapWriter σ) Unit := fun w =>
  if w.buffer = [] then (.ok (), w)
  else
    match S.append w.buffer w.sink with
    | (.ok (), sink) => (.ok (), ⟨sink, []⟩)
    | (stopped, sink) => (stopped, { w with sink })

def flushFull : Action (HeapWriter σ) Unit := fun w =>
  if w.buffer.length = threshold then flush S w else (.ok (), w)

def keep (bytes : List UInt8) : Action (HeapWriter σ) Unit :=
  Action.step fun w => .ok { w with buffer := w.buffer ++ bytes }

/-- Gathers bytes and appends every full portion, in at most `fuel` portions. -/
def gather : Nat → List UInt8 → Action (HeapWriter σ) Unit
  | _, [] => pure ()
  | 0, _ :: _ => Action.view fun _ => .trap
  | fuel + 1, b :: bytes => do
    let room ← Action.view fun w => Word.sub threshold w.buffer.length
    keep ((b :: bytes).take room)
    flushFull S threshold
    gather fuel ((b :: bytes).drop room)

/-- Appends the content of one element, and answers with the offset it starts at. -/
def append (content : List UInt8) : Action (HeapWriter σ) Nat := do
  let offset ← Action.view (size S)
  if threshold = 0 then
    if content ≠ [] then Action.zoom HeapWriter.sink (fun sink w => { w with sink }) (S.append content)
  else gather S threshold (content.length + 1) content
  return offset

def finish : Action (HeapWriter σ) Nat := do
  flush S
  Action.view fun w => .ok (S.size w.sink)

/-- Ends without `finish`. What is left is appended if that succeeds, and a warning tells if not. -/
def abandon : HeapWriter σ → Option String × σ := fun w =>
  match flush S w with
  | (.fail e, w) => (some s!"Dropping {w.buffer.length} unflushed heap bytes: {e.message}", w.sink)
  | (_, w) => (none, w.sink)

def appendAll (contents : List (List UInt8)) : Action (HeapWriter σ) HeapSpan := do
  let start ← Action.view (size S)
  let lengths ← Action.collect (fun content => do
    let _ ← append S threshold content
    return UInt64.ofNat content.length) contents
  return ⟨UInt64.ofNat start, lengths⟩

/-- Appends contents to a sink, and warns of bytes that were gathered and could not be appended after a failure. -/
def writeWarning (contents : List (List UInt8)) (sink : σ) : (Outcome HeapSpan × Option String) × σ :=
  match appendAll S threshold contents ⟨sink, []⟩ with
  | (.ok span, w) =>
    let (finished, w) := finish S w
    ((do let _ ← finished; return span, none), w.sink)
  | (failed, w) =>
    let (warning, sink) := abandon S w
    ((failed, warning), sink)

def write (contents : List (List UInt8)) : Action σ HeapSpan := fun sink =>
  let ((span, _), sink) := writeWarning S threshold contents sink
  (span, sink)

end HeapWriter

/-! ## Arrays -/

def checkElementCount (s : Shape) (count : Nat) : Outcome Unit := Codec.checkCount s "elements" count

def writePointers (o : WriteOptions) (span : HeapSpan) : Action (Dataset Pointer) Unit := do
  let d ← Action.view Outcome.ok
  checkElementCount d.shape span.lengths.length
  let offsets ← span.offsets
  let tiling ← Tiling.planned d.shape.dims d.layout.chunk? o.elementBudget.toNat
  let slabs ← tiling.toList
  Action.forEach (fun slab => do
    let ps ← Codec.encodeSlab d.shape slab offsets span.lengths
    Dataset.write slab ps) slabs

def writeElements (S : Sink σ) (o : WriteOptions) (contents : List (List UInt8)) :
    Action (Dataset Pointer × σ) Unit := do
  let (d, _) ← Action.view Outcome.ok
  checkElementCount d.shape contents.length
  let span ← Action.zoom Prod.snd (fun s p => (p.1, s)) (HeapWriter.write S o.flushThreshold.toNat contents)
  Action.zoom Prod.fst (fun d p => (d, p.2)) (writePointers o span)

end Ragged

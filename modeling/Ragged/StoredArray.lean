import Ragged.Catalog
import Ragged.Reading
import Ragged.Writing

/-!
# Arrays in containers

An array of byte strings lies in a group of a container as two datasets: `pointers`, in the shape of the array, and
`heap`, which grows.
-/

namespace Ragged

structure StoredArray (X : Type := Empty) where
  group : String
  pointers : @Handle X .pointer
  heap : @Handle X .byte
deriving DecidableEq

namespace StoredArray

variable {X : Type} [Elements X]

/-- Creates the datasets of an array, and the group if it is missing. -/
def create (group : String) (s : Shape) (o : WriteOptions) : Action (Catalog X) (StoredArray X) := do
  let group := Path.trimSlashes group
  let c ← Action.view Outcome.ok
  if ¬ c.hasGroup group then Catalog.createGroup group
  let pointers ← Catalog.createDataset .pointer (Path.child group "pointers") (o.pointerConfig s)
  let heap ← Catalog.createExtensible .byte (Path.child group "heap") o.heapChunkLen o.compressionLevel
  return ⟨group, pointers, heap⟩

def openGroup (c : Catalog X) (group : String) : Outcome (StoredArray X) := do
  let group := Path.trimSlashes group
  let note := s!"opening variable-length array '{group}'"
  let pointers ← (c.openDataset .pointer (Path.child group "pointers")).withContext note
  let heap ← (c.openDataset .byte (Path.child group "heap")).withContext note
  return ⟨group, pointers, heap⟩

def shape (a : StoredArray X) (c : Catalog X) : Outcome Shape := a.pointers.view (fun d => .ok d.shape) c

def heapSize (a : StoredArray X) (c : Catalog X) : Outcome Nat := a.heap.view (fun d => .ok d.size) c

def write (a : StoredArray X) (o : WriteOptions) (contents : List (List UInt8)) : Action (Catalog X) Unit :=
  a.pointers.actWith a.heap (writeElements Sink.dataset o contents)

def createWritten (group : String) (s : Shape) (o : WriteOptions) (contents : List (List UInt8)) :
    Action (Catalog X) (StoredArray X) := do
  checkElementCount s contents.length
  let a ← create group s o
  a.write o contents
  return a

variable {α : Type}

def readWith (f : View Pointer → View UInt8 → Outcome α) (a : StoredArray X) (c : Catalog X) : Outcome α :=
  a.pointers.view (fun p => a.heap.view (fun h => f p.view h.view) c) c

def read (a : StoredArray X) (o : ReadOptions) : Catalog X → Outcome (List (List UInt8)) := a.readWith (readArray o)

def readTexts (a : StoredArray X) (o : ReadOptions) : Catalog X → Outcome (List String) := a.readWith (readStrings o)

def readAt (a : StoredArray X) (o : ReadOptions) (coord : List Nat) : Catalog X → Outcome (List UInt8) :=
  a.readWith fun p h => readElement o p h coord

end StoredArray

end Ragged

import Ragged.Dataset
import Ragged.Pointer.Basic

/-!
# Catalogs

A container of datasets in groups. Groups and datasets share one space of paths; each lies in a group that was there
before it, and none is ever removed. Datasets are reached through handles, which hold the path and the type of the
elements: all handles of one dataset see the same elements.
-/

namespace Ragged

/-- Types of elements under codes: what their elements are, the one in cells that were never written, and the name
that is shown for them. -/
class Elements (X : Type) where
  [decEq : DecidableEq X]
  Carrier : X → Type
  [inhabited : (x : X) → Inhabited (Carrier x)]
  name : X → String

attribute [reducible, instance] Elements.decEq Elements.inhabited

instance : Elements Empty where
  Carrier := nofun
  inhabited := nofun
  name := nofun

/-- Types of elements: bytes and pointers, of which arrays are made, words, and any others. -/
inductive ElementType (X : Type := Empty) where
  | byte
  | word32
  | word64
  | pointer
  | other (x : X)
deriving DecidableEq

variable {X : Type} [Elements X]

namespace ElementType

abbrev Carrier : ElementType X → Type
  | byte => UInt8
  | word32 => UInt32
  | word64 => UInt64
  | pointer => Pointer
  | other x => Elements.Carrier x

instance instInhabitedCarrier : (t : ElementType X) → Inhabited t.Carrier
  | byte => ⟨(0 : UInt8)⟩
  | word32 => ⟨(0 : UInt32)⟩
  | word64 => ⟨(0 : UInt64)⟩
  | pointer => ⟨(default : Pointer)⟩
  | other x => Elements.inhabited x

def name : ElementType X → String
  | byte => "u8"
  | word32 => "u32"
  | word64 => "u64"
  | pointer => "vlheap_codec::pointer::PointerRecord"
  | other x => Elements.name x

end ElementType

structure Entry (X : Type) [Elements X] where
  type : ElementType X
  dataset : Dataset type.Carrier

namespace Entry

def path (e : Entry X) : Path := e.dataset.path

/-- The dataset, if its elements are of the type asked for. -/
def as? (t : ElementType X) (e : Entry X) : Option (Dataset t.Carrier) :=
  if h : e.type = t then some (h ▸ e.dataset) else none

end Entry

structure Handle {X : Type} (t : ElementType X) where
  path : Path
deriving DecidableEq

structure Catalog (X : Type := Empty) [Elements X] where
  groups : List Path
  entries : List (Entry X)

namespace Catalog

def empty : Catalog X := ⟨[], []⟩

/-- The chunk length of a dataset that grows, unless a caller chooses it. -/
def defaultChunkLen : UInt64 := 65536

def groupExists (c : Catalog X) (p : Path) : Bool := p.isEmpty || c.groups.contains p

def entry? (c : Catalog X) (p : Path) : Option (Entry X) := c.entries.find? fun e => e.path = p

def hasGroup (c : Catalog X) (path : String) : Bool := c.groupExists (Path.ofString path)

def hasDataset (c : Catalog X) (path : String) : Bool := (c.entry? (Path.ofString path)).isSome

def insertSorted (s : String) : List String → List String
  | [] => [s]
  | t :: ts => if t < s then t :: insertSorted s ts else s :: t :: ts

def datasetPaths (c : Catalog X) : List String :=
  (c.entries.map fun e => e.path.render).foldr insertSorted []

def checkVacant (c : Catalog X) (p : Path) : Outcome Unit := do
  Outcome.require (p ≠ []) (.invalidArgument "the root group already exists")
  Outcome.require (c.groupExists p.parent)
    (.invalidArgument s!"parent group '{p.parent.render}' of '{p.render}' does not exist")
  Outcome.require (¬ c.groups.contains p ∧ (c.entry? p).isNone) (.invalidArgument s!"'{p.render}' already exists")

def createGroup (path : String) : Action (Catalog X) Unit :=
  Action.step fun c => do
    let p := Path.ofString path
    c.checkVacant p
    return { c with groups := p :: c.groups }

def insert (t : ElementType X) (path : String) (store : Store t.Carrier) : Action (Catalog X) (Handle t) := do
  let p := Path.ofString path
  Action.step fun c => do
    c.checkVacant p
    return { c with entries := ⟨t, ⟨p, store⟩⟩ :: c.entries }
  return ⟨p⟩

def createDataset (t : ElementType X) (path : String) (config : DatasetConfig) : Action (Catalog X) (Handle t) := do
  let shape ← config.shape
  let layout ← config.layout
  let store ← Store.create shape layout false
  insert t path store

/-- The layout of a dataset that grows: always in chunks. -/
def extensibleLayout (chunkLen : UInt64) (level : UInt8) : Outcome Layout := do
  let config : DatasetConfig := { dimensions := [0], chunkShape := [chunkLen], compressionLevel := level }
  match ← config.layout with
  | .contiguous => return .chunked [chunkLen] []
  | layout => return layout

def createExtensible (t : ElementType X) (path : String) (chunkLen : Option UInt64) (level : UInt8) :
    Action (Catalog X) (Handle t) := do
  let chunkLen := chunkLen.getD defaultChunkLen
  Outcome.require (chunkLen ≠ 0)
    (.invalidArgument s!"extensible dataset '{path}' needs a non-zero chunk length")
  let layout ← extensibleLayout chunkLen level
  let shape ← Shape.ofDims [0]
  let store ← Store.create shape layout true
  insert t path store

def openDataset (c : Catalog X) (t : ElementType X) (path : String) : Outcome (Handle t) := do
  let p := Path.ofString path
  let e ← Outcome.ofOption (.invalidArgument s!"no dataset at '{p.render}'") (c.entry? p)
  let _ ← Outcome.ofOption (.invalidArgument s!"dataset '{p.render}' does not hold {t.name}") (e.as? t)
  return ⟨p⟩

def dataset? {t : ElementType X} (c : Catalog X) (h : Handle t) : Option (Dataset t.Carrier) := do
  (← c.entry? h.path).as? t

/-- Puts a dataset in the place of the one at its path. -/
def put {t : ElementType X} (c : Catalog X) (d : Dataset t.Carrier) : Catalog X :=
  { c with entries := c.entries.map fun e => if e.path = d.path then ⟨t, d⟩ else e }

end Catalog

namespace Handle

variable {t : ElementType X} {α : Type}

def view (h : Handle t) (f : Dataset t.Carrier → Outcome α) (c : Catalog X) : Outcome α := do
  f (← Outcome.orTrap (c.dataset? h))

def act (h : Handle t) (a : Action (Dataset t.Carrier) α) : Action (Catalog X) α := fun c =>
  match c.dataset? h with
  | none => (.trap, c)
  | some d =>
    let (x, d) := a d
    (x, c.put d)

def actWith {u : ElementType X} (h : Handle t) (k : Handle u) (a : Action (Dataset t.Carrier × Dataset u.Carrier) α) :
    Action (Catalog X) α := fun c =>
  match c.dataset? h, c.dataset? k with
  | some d, some e =>
    let (x, d, e) := a (d, e)
    (x, (c.put d).put e)
  | _, _ => (.trap, c)

end Handle

end Ragged

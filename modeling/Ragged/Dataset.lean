import Ragged.Path
import Ragged.Store

/-!
# Datasets

A store at its path. Failures of reading and writing name the path. A `View` is what a reader sees of a dataset.
-/

namespace Ragged

structure Dataset (α : Type) where
  path : Path
  store : Store α

/-- The shape and layout of a dataset, and how its slabs are read. -/
structure View (α : Type) where
  shape : Shape
  layout : Layout
  read : Slab → Outcome (List α)

namespace Dataset

variable {α : Type}

def shape (d : Dataset α) : Shape := d.store.shape

def layout (d : Dataset α) : Layout := d.store.layout

def size (d : Dataset α) : Nat := d.shape.size

variable [Inhabited α]

def read (d : Dataset α) (slab : Slab) : Outcome (List α) :=
  (d.store.read slab).withContext s!"reading {slab.render} from '{d.path.render}'"

def write (slab : Slab) (values : List α) : Action (Dataset α) Unit :=
  Action.step fun d => do
    let store ← (d.store.write slab values).withContext s!"writing {slab.render} to '{d.path.render}'"
    return { d with store }

def append (values : List α) : Action (Dataset α) Unit :=
  Action.step fun d =>
    if d.store.extensible then do
      let store ← (d.store.append values).withContext s!"appending to '{d.path.render}'"
      return { d with store }
    else .fail (.invalidArgument s!"dataset '{d.path.render}' is not extensible")

def view (d : Dataset α) : View α := ⟨d.shape, d.layout, d.read⟩

end Dataset

end Ragged

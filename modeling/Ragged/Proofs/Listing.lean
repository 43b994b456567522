import Ragged.Proofs.Dataset

/-!
# All elements of an array

Read as a whole, an array gives the list of its elements in the order of their numbers.
-/

namespace Ragged

theorem Slab.coordsOf_origin (dims : List Nat) :
    coordsOf (List.replicate dims.length 0) dims = Odometer.grid dims := by
  induction dims with
  | nil => rfl
  | cons d dims ih =>
    rw [List.length_cons, List.replicate_succ, coordsOf, ih, Odometer.grid, List.range_eq_range']

theorem Slab.cells_whole (dims : List Nat) : (whole (Shape.rowMajor dims)).cells = Odometer.grid dims := by
  unfold cells
  by_cases hz : (whole (Shape.rowMajor dims)).size = 0
  · rw [if_pos hz, Odometer.grid_eq_nil (List.prod_eq_zero_iff.mp hz)]
  · rw [if_neg hz]
    exact coordsOf_origin dims

theorem Slab.Inside.whole {dims : List Nat} (hw : ∀ d ∈ dims, d < 2 ^ 64) :
    Inside (List.replicate dims.length 0) dims dims := by
  induction dims with
  | nil => exact .nil
  | cons d dims ih =>
    rw [List.forall_mem_cons] at hw
    exact .cons (by rw [Nat.zero_add]; exact hw.1) (by rw [Nat.zero_add]) (ih hw.2)

namespace Dataset

variable {α : Type} [Inhabited α]

/-- The elements in the order of their numbers. -/
def listed (d : Dataset α) : List α := (Odometer.grid d.shape.dims).map d.store.value

theorem length_listed {d : Dataset α} (hd : d.store.Sound) : d.listed.length = d.size := by
  have hsize : d.size = d.shape.dims.prod := hd.size_eq
  rw [listed, List.length_map, Odometer.length_grid, hsize]

theorem getElem?_listed (d : Dataset α) {c : List Nat} (hc : List.Forall₂ (· < ·) c d.shape.dims) :
    d.listed[dot (Shape.stridesOf d.shape.dims) c]? = some (d.store.value c) := by
  rw [listed, List.getElem?_map, Shape.getElem?_grid hc]
  rfl

theorem exists_coord_of_listed {d : Dataset α} (hd : d.store.Sound) {i : Nat} {a : α} (hi : d.listed[i]? = some a) :
    ∃ c, List.Forall₂ (· < ·) c d.shape.dims ∧ dot (Shape.stridesOf d.shape.dims) c = i ∧ d.store.value c = a := by
  have hsize : d.size = d.shape.dims.prod := hd.size_eq
  obtain ⟨hlt, -⟩ := List.getElem?_eq_some_iff.mp hi
  rw [length_listed hd, hsize] at hlt
  obtain ⟨c, hc, rfl⟩ := Shape.exists_coord hlt
  rw [d.getElem?_listed hc] at hi
  exact ⟨c, hc, rfl, Option.some.inj hi⟩

theorem read_whole {d : Dataset α} (hd : d.store.Sound) (hw : ∀ n ∈ d.shape.dims, n < 2 ^ 64) :
    d.read (Slab.whole d.shape) = .ok d.listed := by
  have hshape : d.shape = Shape.rowMajor d.shape.dims := hd.shape_eq
  have hrank : (Slab.whole d.shape).starts.length = (Slab.whole d.shape).counts.length := List.length_replicate
  have hin : (Slab.whole d.shape).checkWithin d.store.shape = .ok () := by
    rw [Slab.checkWithin_eq_ok hrank]
    exact .whole hw
  have hcells : (Slab.whole d.shape).cells = Odometer.grid d.shape.dims := by
    rw [hshape]
    exact Slab.cells_whole _
  rw [read, hd.read_eq hrank, hin, Outcome.ok_bind, hcells]
  rfl

end Dataset

end Ragged

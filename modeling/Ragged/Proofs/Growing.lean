import Ragged.Proofs.Dataset

/-!
# Datasets that grow

A dataset that grows is a list: what is appended comes after the elements that were there, and ranges of it are
read as parts of the list.
-/

namespace Ragged.Dataset

variable {α : Type}

/-- A dataset of one dimension, growing or not. -/
structure Linear (d : Dataset α) : Prop where
  sound : d.store.Sound
  dims : d.store.shape.dims = [d.size]

theorem Linear.of_rank {d : Dataset α} (h : d.store.Sound) (hrank : d.shape.rank = 1) : d.Linear := ⟨h, h.dims_eq hrank⟩

theorem Linear.size_lt {d : Dataset α} (h : d.Linear) : d.size < 2 ^ 64 := h.sound.size_lt

structure Grows (d : Dataset α) : Prop where
  sound : d.store.Sound
  extensible : d.store.extensible = true

theorem Grows.linear {d : Dataset α} (h : d.Grows) : d.Linear := .of_rank h.sound (h.sound.linear h.extensible)

theorem Grows.rank {d : Dataset α} (h : d.Grows) : d.store.chunkShape.length = 1 := by
  rw [h.sound.rank, h.linear.dims, List.length_singleton]

theorem Grows.size_lt {d : Dataset α} (h : d.Grows) : d.size < 2 ^ 64 := h.sound.size_lt

theorem create_growing {chunkLen : UInt64} (h0 : chunkLen ≠ 0) :
    Store.create (α := α) (Shape.rowMajor [0]) (.chunked [chunkLen] []) true =
      .ok ⟨Shape.rowMajor [0], .chunked [chunkLen] [], true, [chunkLen.toNat], chunkLen.toNat, []⟩ := by
  have hne : 0 ∉ [chunkLen.toNat] := by
    rw [List.mem_singleton]
    exact fun h => h0 (UInt64.toNat_inj.mp h.symm)
  have hchunk : Shape.ofDims [chunkLen.toNat] = .ok (Shape.rowMajor [chunkLen.toNat]) := by
    apply Shape.ofDims_of_prod hne
    rw [List.prod_singleton]
    exact UInt64.toNat_lt chunkLen
  simp [Store.create, Layout.chunk?, Outcome.require, hchunk]

theorem New.uncompressed (path : Path) {chunkLen : UInt64} (h0 : chunkLen ≠ 0) :
    New (α := α)
      ⟨path, ⟨Shape.rowMajor [0], .chunked [chunkLen] [], true, [chunkLen.toNat], chunkLen.toNat, []⟩⟩ := by
  have hlayout : Catalog.extensibleLayout chunkLen 0 = .ok (.chunked [chunkLen] []) := rfl
  have hshape : Shape.ofDims [0] = .ok (Shape.rowMajor [0]) := rfl
  exact .growing h0 hlayout hshape (create_growing h0)

section
variable [Inhabited α]

def elements (d : Dataset α) : List α := (List.range d.size).map fun i => d.store.value [i]

@[simp] theorem length_elements (d : Dataset α) : d.elements.length = d.size := by simp [elements]

theorem New.grows {d : Dataset α} (h : d.New) (he : d.store.extensible = true) : d.Grows := ⟨h.shows.sound, he⟩

theorem Grows.append_eq_ok {d : Dataset α} (h : d.Grows) {values : List α}
    (hv : d.size + values.length < 2 ^ 64) :
    ∃ store, append values d = (.ok (), { d with store }) ∧ Grows { d with store } ∧
      elements { d with store } = d.elements ++ values := by
  obtain ⟨chunks, hw, hsound, hvalue⟩ := h.sound.append_eq_ok (h.sound.linear h.extensible) hv
  refine ⟨_, ?_, ⟨hsound, h.extensible⟩, ?_⟩
  · simp only [append, Action.step, if_pos h.extensible, hw]
    rfl
  · have hnow : ∀ i, Store.value { d.store with chunks } [i] =
        (((Slab.range d.size values.length).cells.zip values).lookup [i]).getD (d.store.value [i]) :=
      fun i => hvalue [i] h.rank.symm
    have hold : (List.range' 0 d.size).map (fun i => Store.value { d.store with chunks } [i]) =
        (List.range' 0 d.size).map fun i => d.store.value [i] := by
      apply List.map_congr_left
      intro i hi
      rw [hnow, lookup_zip_eq_none]
      · rfl
      · rw [Slab.cells_range]
        intro hm
        obtain ⟨j, hj, hij⟩ := List.mem_map.mp hm
        obtain rfl := List.head_eq_of_cons_eq hij
        have := (List.mem_range'_1.mp hi).2
        have := (List.mem_range'_1.mp hj).1
        omega
    have hnew : (List.range' d.size values.length).map (fun i => Store.value { d.store with chunks } [i]) =
        values := by
      have hlookup := map_lookup_zip (g := d.store.value)
        (Slab.cells_nodup (Slab.range d.size values.length))
        (show _ = values.length from (Slab.range_sized _ _).length_cells)
      rw [Slab.cells_range, List.map_map, ← Slab.cells_range] at hlookup
      exact (List.map_congr_left fun i _ => hnow i).trans hlookup
    have hsplit : List.range (d.size + values.length) =
        List.range' 0 d.size ++ List.range' d.size values.length := by
      rw [List.range_eq_range', ← List.range'_append_1, Nat.zero_add]
    have hgrown : size { d with store := { d.store with chunks, shape := Shape.rowMajor [d.size + values.length] } } =
        d.size + values.length := List.prod_singleton
    calc elements { d with store := { d.store with chunks, shape := Shape.rowMajor [d.size + values.length] } }
        = (List.range (d.size + values.length)).map fun i => Store.value { d.store with chunks } [i] :=
          congrArg (List.map _ <| List.range ·) hgrown
      _ = d.elements ++ values := by
          rw [hsplit, List.map_append, hold, hnew, elements, List.range_eq_range']

theorem Grows.append_eq_fail {d : Dataset α} (h : d.Grows) {values : List α}
    (hv : ¬ d.size + values.length < 2 ^ 64) :
    append values d = (.fail (.context s!"appending to '{d.path.render}'"
      (.invalidArgument s!"cannot grow {d.size} elements past {Word.last}")), d) := by
  simp only [append, Action.step, if_pos h.extensible, Store.append_eq_fail hv]
  rfl

theorem Linear.read_range {d : Dataset α} (h : d.Linear) {start count : Nat} (hb : start + count ≤ d.size) :
    d.read (Slab.range start count) = .ok ((d.elements.drop start).take count) := by
  have hin : (Slab.range start count).checkWithin d.store.shape = .ok () := by
    rw [Slab.checkWithin_eq_ok rfl, h.dims]
    exact .cons (Nat.lt_of_le_of_lt hb h.size_lt) hb .nil
  rw [read, h.sound.read_eq rfl, hin, Outcome.ok_bind, Slab.cells_range]
  have hrange : ((List.range d.size).drop start).take count = List.range' start count := by
    rw [List.range_eq_range', List.drop_range', List.take_range'_of_length_ge (by omega)]
    simp
  rw [elements, ← List.map_drop, ← List.map_take, hrange, List.map_map]
  rfl

theorem Linear.read_whole {d : Dataset α} (h : d.Linear) : d.read (Slab.whole d.shape) = .ok d.elements := by
  have hwhole : Slab.whole d.shape = Slab.range 0 d.size := by
    show Slab.whole d.store.shape = Slab.range 0 d.store.shape.size
    rw [Slab.whole, Shape.rank, h.dims]
    rfl
  rw [hwhole, h.read_range (Nat.le_of_eq (Nat.zero_add _)), List.drop_zero, List.take_of_length_le]
  rw [length_elements]

end

end Ragged.Dataset

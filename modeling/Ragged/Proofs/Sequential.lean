import Ragged.Proofs.Resolving

/-!
# Walks in order

Without chunks a planned block takes up the whole extent of the faster dimensions before it grows along a slower one.
Its walk goes through the elements in the order of their numbers, so the budget does not matter for what is read, not
even for which pointer is blamed.
-/

namespace Ragged

open Odometer (grid origin)

namespace Tiling

theorem grid_blockCounts_full {full : List Nat} (h0 : 0 ∉ full) : grid (blockCounts full full) = [origin full] := by
  induction full with
  | nil => rfl
  | cons f full ih =>
    obtain ⟨hf, hfs⟩ := List.ne_and_not_mem_of_not_mem_cons h0
    have hone : (f + f - 1) / f = 1 := Nat.div_eq_of_lt_le (by omega) (by omega)
    simp [grid, hone, ih hfs]

theorem coords_blockAt_full (full : List Nat) : (blockAt full full (origin full)).coords = grid full := by
  induction full with
  | nil => rfl
  | cons f full ih => simp [coords_blockAt_cons, ih, grid, List.range_eq_range']

/-- A dimension is cut in single rows, over which the faster dimensions come in their order, or in segments of rows
that hold all of the faster dimensions. -/
theorem coords_eq_grid {full block : List Nat} (hf : 0 ∉ full) (h0 : 0 ∉ block)
    (h : Plan.Grown (List.zipWith min (List.replicate full.length 1) full) full block) :
    ((grid (blockCounts full block)).flatMap fun ks => (blockAt full block ks).coords) = grid full := by
  induction full generalizing block with
  | nil =>
    cases h
    rfl
  | cons f full ih =>
    obtain ⟨hf, hfs⟩ := List.ne_and_not_mem_of_not_mem_cons hf
    have hone : min 1 f = 1 := by omega
    rw [List.length_cons, List.replicate_succ, List.zipWith_cons_cons, hone] at h
    cases h with
    | @kept _ _ _ _ block rest =>
      have hrow : ∀ k ∈ List.range f, ((grid (blockCounts full block)).flatMap fun ks =>
          (blockAt (f :: full) (1 :: block) (k :: ks)).coords) = (grid full).map (k :: ·) := by
        intro k hk
        have hrows : min 1 (f - k) = 1 := by
          have := List.mem_range.mp hk
          omega
        simp [coords_blockAt_cons, hrows, ← List.map_flatMap, ih hfs (List.not_mem_of_not_mem_cons h0) rest]
      simp only [blockCounts_cons, grid, List.flatMap_assoc, List.flatMap_map, Nat.add_sub_cancel, Nat.div_one]
      exact List.flatMap_congr hrow
    | scaled multiple =>
      have hb := (List.ne_and_not_mem_of_not_mem_cons h0).1
      simp only [blockCounts_cons, grid, List.flatMap_assoc, List.flatMap_map, grid_blockCounts_full hfs,
        List.flatMap_singleton, coords_blockAt_cons, coords_blockAt_full]
      rw [← List.flatMap_assoc, flatMap_blockSegments (Ne.symm hb)]

theorem planned_in_order {full : List Nat} {s : Shape} {budget : Nat} (hs : Shape.ofDims full = .ok s)
    (hb : budget < 2 ^ 64) :
    ∃ t slabs, planned full none budget = .ok t ∧ t.Walks slabs ∧ (∀ slab ∈ slabs, slab.Block full) ∧
      slabs.flatMap Slab.coords = grid full := by
  have hchunk : Plan.Chunked none full := nofun
  obtain ⟨t, ht⟩ := planned_eq_ok hs hchunk hb
  by_cases hf : 0 ∈ full
  · exact ⟨t, [], ht, walks_planned_void ht hf, by simp, (Odometer.grid_eq_nil hf).symm⟩
  · obtain ⟨block, hl, h0, hp, -, hgrown, hwalks⟩ := walks_planned ht hb hf
    refine ⟨t, _, ht, hwalks, gridSlabs_blocks hl.symm h0 hf hp, ?_⟩
    rw [gridSlabs, List.flatMap_map]
    exact coords_eq_grid hf h0 hgrown

end Tiling

/-! ## Pointers in one piece -/

section
variable {d : Dataset Pointer} (hd : d.store.Sound) (hone : d.layout = .contiguous) {budget : Nat}
  (hb : budget < 2 ^ 64)
include hd hone hb

theorem walk_in_order :
    walkOrder budget d.view = .ok (List.range d.size) ∧
      ∀ {σ : Type} (visit : Nat → Pointer → Action σ Unit), forEachPointer budget d.view visit =
        Action.forEach (fun c => visit (dot (Shape.stridesOf d.shape.dims) c) (d.store.value c))
          (grid d.shape.dims) := by
  have hsize : d.size = d.shape.dims.prod := hd.size_eq
  obtain ⟨t, slabs, ht, hwalks, hblocks, hcoords⟩ := Tiling.planned_in_order hd.shape hb
  have hplan : Tiling.planned d.shape.dims d.layout.chunk? budget = .ok t := hone ▸ ht
  have horder := walkOrder_of_blocks hplan hwalks.list hd hblocks
  have hcoords : slabs.flatMap Slab.coords = grid d.shape.dims := hcoords
  rw [hcoords, Shape.map_dot_grid, ← hsize] at horder
  refine ⟨horder, fun visit => ?_⟩
  rw [forEachPointer_of_blocks hplan hwalks.list hd hblocks, hcoords]

end

theorem readArray_budget {d : Dataset Pointer} (hd : d.store.Sound) (hone : d.layout = .contiguous) (o : ReadOptions)
    (budget : UInt64) (heap : View UInt8) :
    readArray { o with elementBudget := budget } d.view heap = readArray o d.view heap := by
  simp only [readArray, forPointers, (walk_in_order hd hone (UInt64.toNat_lt _)).2]
  rfl

theorem readArray_in_order {d : Dataset Pointer} (hd : d.store.Sound) (hone : d.layout = .contiguous)
    {heap : Dataset UInt8} (hh : heap.Linear) (o : ReadOptions) :
    readArray o d.view heap.view =
      match Pointer.firstOutside d.listed heap.size (List.range d.size) with
      | none => .ok (d.listed.map fun p => o.trim.apply (p.contentIn heap.elements))
      | some f => .fail (.context (Codec.locate d.shape f) ((d.listed[f]?.getD default).outside heap.size)) := by
  obtain ⟨order, horder, -, hread⟩ := readArray_eq_firstOutside o hd hh
  obtain rfl := Outcome.ok.inj (horder.symm.trans (walk_in_order hd hone (UInt64.toNat_lt _)).1)
  exact hread

theorem Pointer.firstOutside_range_eq_none {ps : List Pointer} {size n : Nat}
    (h : ∀ p ∈ ps, p.offset.toNat + p.length.toNat ≤ size) : firstOutside ps size (List.range n) = none := by
  rw [firstOutside, List.find?_eq_none]
  intro i _
  cases hp : ps[i]? with
  | none => simp
  | some p => simpa using h p (List.mem_of_getElem? hp)

theorem Pointer.firstOutside_range_eq_some {ps : List Pointer} {size f : Nat} {p : Pointer} (hf : ps[f]? = some p)
    (hout : size < p.offset.toNat + p.length.toNat)
    (hbefore : ∀ i q, i < f → ps[i]? = some q → q.offset.toNat + q.length.toNat ≤ size) :
    firstOutside ps size (List.range ps.length) = some f := by
  rw [firstOutside, List.find?_range_eq_some]
  refine ⟨by simpa [hf] using hout, List.mem_range.mpr (List.getElem?_eq_some_iff.mp hf).1, ?_⟩
  intro i hi
  cases hq : ps[i]? with
  | none => simp
  | some q => simpa using hbefore i q hi hq

/-- Where an array is not chunked, the slabs of a walk and the indices in each of them come to the elements `0, 1, 2, …`
in this order, whatever the budget is. So the budget has no part in what is read, and among the pointers that lead out
of the heap the one with the least number is blamed, by its number and its coordinate. -/
theorem unchunked_in_order :
    (∀ (full : List Nat) (s : Shape) (budget : UInt64), Shape.ofDims full = .ok s →
      ∃ t slabs indices, Tiling.planned full none budget.toNat = .ok t ∧ t.toList = .ok slabs ∧
        (∀ n, slabs.length ≤ n → t.take n = .ok slabs) ∧
        slabs.mapM (fun slab => do (← Indices.ofSlab s.strides slab).toList) = .ok indices ∧
        indices.flatten = List.range s.size) ∧
    ∀ d : Dataset Pointer, d.Reached → d.layout = .contiguous →
      (∀ (o : ReadOptions) (budget : UInt64) (heap : View UInt8),
        readArray { o with elementBudget := budget } d.view heap = readArray o d.view heap) ∧
      ∀ heap : Dataset UInt8, heap.Reached → heap.shape.rank = 1 →
        ∃ ps, d.read (Slab.whole d.shape) = .ok ps ∧ ps.length = d.size ∧ ∀ o : ReadOptions,
          ((∀ p ∈ ps, p.offset.toNat + p.length.toNat ≤ heap.size) →
            ∃ contents, readArray o d.view heap.view = .ok contents) ∧
          ∀ f p, ps[f]? = some p → heap.size < p.offset.toNat + p.length.toNat →
            (∀ i q, i < f → ps[i]? = some q → q.offset.toNat + q.length.toNat ≤ heap.size) →
            ∃ c, d.shape.unravel f = .ok c ∧
              readArray o d.view heap.view = .fail (.context s!"flat index {f} at coordinate {Text.coordinate c}"
                (.corruption s!"pointer {p.render} out of range of the heap of {heap.size} bytes")) := by
  constructor
  · intro full s budget hs
    obtain ⟨t, slabs, ht, hwalks, hblocks, hcoords⟩ := Tiling.planned_in_order hs (UInt64.toNat_lt budget)
    obtain ⟨rfl, hp⟩ := Shape.ofDims_eq_ok hs
    have hindices : ∀ slab ∈ slabs, (do (← Indices.ofSlab (Shape.rowMajor full).strides slab).toList) =
        .ok (slab.coords.map (dot (Shape.stridesOf full))) := by
      intro slab hslab
      have hblock := hblocks slab hslab
      exact Indices.toList_ofSlab hp hblock.inside hblock.counts hblock.size
    refine ⟨t, slabs, _, ht, hwalks.list, hwalks.drained, Outcome.mapM_eq_ok hindices, ?_⟩
    rw [← List.flatMap_def, ← List.map_flatMap, hcoords, Shape.map_dot_grid, Shape.rowMajor_size]
  · intro d hd hone
    refine ⟨readArray_budget hd.sound hone, fun heap hh hrank => ?_⟩
    have hl : heap.Linear := .of_rank hh.sound hrank
    have hlen := Dataset.length_listed hd.sound
    refine ⟨d.listed, Dataset.read_whole hd.sound hd.extent_lt, hlen, fun o => ⟨fun hall => ?_, ?_⟩⟩
    · rw [readArray_in_order hd.sound hone hl, Pointer.firstOutside_range_eq_none hall]
      exact ⟨_, rfl⟩
    · intro f p hf hout hbefore
      rw [readArray_in_order hd.sound hone hl, ← hlen, Pointer.firstOutside_range_eq_some hf hout hbefore]
      have hlt : f < d.size := hlen ▸ (List.getElem?_eq_some_iff.mp hf).1
      obtain ⟨c, hc, hplace⟩ := Codec.locate_of_lt (s := d.shape) hd.sound.shape_eq hlt
      refine ⟨c, hc, ?_⟩
      simp only [hf, Option.getD_some, hplace]
      rfl

theorem unchunked_in_order_two_by_two :
    (∃ t slabs indices, Tiling.planned [2, 2] none 0 = .ok t ∧ t.toList = .ok slabs ∧
      slabs.mapM (fun slab => do (← Indices.ofSlab [2, 1] slab).toList) = .ok indices ∧
      indices.flatten = [0, 1, 2, 3]) ∧
    ∃ (d : Dataset Pointer) (heap : Dataset UInt8), d.Reached ∧ heap.Reached ∧
      d.read (Slab.whole d.shape) = .ok [⟨0, 1⟩, ⟨3, 0⟩, ⟨1, 1⟩, ⟨1, 2⟩] ∧
      heap.read (Slab.whole heap.shape) = .ok [7, 8] ∧
      readArray {} d.view heap.view =
        .fail (.context "flat index 1 at coordinate (0, 1)" (Pointer.outside ⟨3, 0⟩ 2)) ∧
      readArray { elementBudget := 0 } d.view heap.view = readArray {} d.view heap.view := by
  have hshape : DatasetConfig.shape ⟨[2, 2], [], 0, false⟩ = .ok (Shape.rowMajor [2, 2]) := by decide
  have hlayout : DatasetConfig.layout ⟨[2, 2], [], 0, false⟩ = .ok .contiguous := by decide
  have hnew : Dataset.New (α := Pointer) ⟨[], ⟨Shape.rowMajor [2, 2], .contiguous, false, [2, 2], 4, []⟩⟩ :=
    .fixed hshape hlayout rfl
  have hd := hnew.reached.perform (.write ⟨[0, 0], [2, 2], 4⟩ [⟨0, 1⟩, ⟨3, 0⟩, ⟨1, 1⟩, ⟨1, 2⟩]) ⟨rfl, .inl rfl⟩
  have hheap := (Dataset.New.uncompressed [] (show (4 : UInt64) ≠ 0 by decide)).reached.perform
    (.append ([7, 8] : List UInt8)) trivial
  obtain ⟨hwalk, hread⟩ := unchunked_in_order
  obtain ⟨t, slabs, indices, ht, hlist, -, hindices, hflat⟩ := hwalk [2, 2] (Shape.rowMajor [2, 2]) 0 rfl
  obtain ⟨hbudget, hheaps⟩ := hread _ hd (by decide)
  obtain ⟨ps, hps, -, hblame⟩ := hheaps _ hheap (by decide)
  obtain rfl : [⟨0, 1⟩, ⟨3, 0⟩, ⟨1, 1⟩, ⟨1, 2⟩] = ps := Outcome.ok.inj (.trans (by decide) hps)
  refine ⟨⟨t, slabs, indices, ht, hlist, hindices, hflat⟩, _, _, hd, hheap, hps, by decide, ?_, hbudget {} 0 _⟩
  have hbefore : ∀ (i : Nat) (q : Pointer), i < 1 → [⟨0, 1⟩, ⟨3, 0⟩, ⟨1, 1⟩, ⟨1, 2⟩][i]? = some q →
      q.offset.toNat + q.length.toNat ≤ 2 := by
    intro i q hi hq
    obtain rfl : i = 0 := by omega
    obtain rfl := Option.some.inj hq
    decide
  obtain ⟨c, hc, hread⟩ := (hblame {}).2 1 ⟨3, 0⟩ rfl (by decide) hbefore
  obtain rfl : [0, 1] = c := Outcome.ok.inj (.trans (by decide) hc)
  have htext : s!"flat index {1} at coordinate {Text.coordinate [0, 1]}" = "flat index 1 at coordinate (0, 1)" := by
    decide
  rwa [htext] at hread

end Ragged

import Ragged.Pointer.Codec
import Ragged.Proofs.Indices
import Ragged.Proofs.Plan
import Ragged.Proofs.Tiling

/-!
# Blocks of an array

A plan for a dataset always succeeds, and its walk goes through every coordinate of the array once. Inside one
block pointers are picked out and given back by the numbers of its coordinates.
-/

namespace Ragged

open Odometer (grid)

/-- A slab of a walk over these extents: it lies inside them and has elements. -/
structure Slab.Block (dims : List Nat) (slab : Slab) : Prop where
  inside : Inside slab.starts slab.counts dims
  counts : 0 ∉ slab.counts
  size : slab.size = slab.counts.prod

namespace Slab.Block

variable {dims : List Nat} {slab : Slab}

theorem sized (h : slab.Block dims) : slab.Sized := ⟨h.inside.length_eq.1, .inl h.size⟩

theorem cells_eq (h : slab.Block dims) : slab.cells = slab.coords := by
  have hne : slab.size ≠ 0 := by
    rw [h.size]
    exact List.prod_ne_zero h.counts
  exact if_neg hne

theorem checkWithin (h : slab.Block dims) {s : Shape} (hs : s.dims = dims) : slab.checkWithin s = .ok () := by
  rw [checkWithin_eq_ok h.sized.rank, hs]
  exact h.inside

theorem coord_lt (h : slab.Block dims) {c : List Nat} (hc : c ∈ slab.coords) : List.Forall₂ (· < ·) c dims :=
  h.inside.coord_lt hc

theorem length_coords (h : slab.Block dims) : slab.coords.length = slab.size := by
  rw [← h.cells_eq, h.sized.length_cells]

end Slab.Block

theorem Slab.Inside.element {c dims : List Nat} (hd : ∀ d ∈ dims, d < 2 ^ 64) (hc : List.Forall₂ (· < ·) c dims) :
    Inside c (List.replicate c.length 1) dims := by
  induction hc with
  | nil => exact .nil
  | cons hc _ ih =>
    rw [List.forall_mem_cons] at hd
    exact .cons (by omega) hc (ih hd.2)

theorem Slab.element_block {c dims : List Nat} (hd : ∀ d ∈ dims, d < 2 ^ 64)
    (hc : List.Forall₂ (· < ·) c dims) : (Slab.element c).Block dims where
  inside := .element hd hc
  counts := by simp [Slab.element, List.mem_replicate]
  size := by simp [Slab.element]

namespace Tiling

structure Walks (t : Tiling) (slabs : List Slab) : Prop where
  list : t.toList = .ok slabs
  drained : ∀ n, slabs.length ≤ n → t.take n = .ok slabs

theorem walks_planned_void {full : List Nat} {chunk : Option (List Nat)} {budget : Nat} {t : Tiling}
    (h : planned full chunk budget = .ok t) (hf : 0 ∈ full) : t.Walks [] := by
  obtain ⟨block, -, h⟩ := Outcome.bind_eq_ok.mp h
  obtain ⟨s, hs, -⟩ := Outcome.bind_eq_ok.mp h
  rw [ofBlock_of_zero hs (length_of_ofBlock h) hf] at h
  obtain rfl := Outcome.ok.inj h
  exact ⟨rfl, fun n _ => take_none full block n⟩

theorem walks_planned {full : List Nat} {chunk : Option (List Nat)} {budget : Nat} {t : Tiling}
    (h : planned full chunk budget = .ok t) (hb : budget < 2 ^ 64) (hf : 0 ∉ full) :
    ∃ block, block.length = full.length ∧ 0 ∉ block ∧ full.prod < 2 ^ 64 ∧
      Plan.Chunked chunk full ∧ Plan.Grown (List.zipWith min (Plan.unit chunk full) full) full block ∧
      t.Walks (gridSlabs full block) := by
  obtain ⟨block, hblock, h⟩ := Outcome.bind_eq_ok.mp h
  obtain ⟨s, hs, -⟩ := Outcome.bind_eq_ok.mp h
  obtain ⟨-, hp⟩ := Shape.ofDims_eq_ok hs
  have hl := length_of_ofBlock h
  have h0 := Plan.block_ne_zero hblock hf
  have hc := Plan.chunked_of_block hblock hf
  obtain ⟨block', hblock', -, hgrown⟩ := Plan.block_eq_ok hc hp hb
  obtain rfl := Outcome.ok.inj (hblock.symm.trans hblock')
  rw [ofBlock_eq_ok hl h0 hf hp] at h
  obtain rfl := Outcome.ok.inj h
  exact ⟨block, hl.symm, h0, hp, hc, hgrown hf, toList_gridSlabs hl h0 hf hp, fun n => take_gridSlabs hl h0 hf hp⟩

theorem planned_eq_ok {full : List Nat} {s : Shape} {chunk : Option (List Nat)} {budget : Nat}
    (hs : Shape.ofDims full = .ok s) (hc : Plan.Chunked chunk full) (hb : budget < 2 ^ 64) :
    ∃ t, planned full chunk budget = .ok t := by
  obtain ⟨rfl, hp⟩ := Shape.ofDims_eq_ok hs
  obtain ⟨block, hblock, hl, -⟩ := Plan.block_eq_ok hc hp hb
  rw [planned, hblock, Outcome.ok_bind]
  by_cases hf : 0 ∈ full
  · exact ⟨_, ofBlock_of_zero hs hl.symm hf⟩
  · exact ⟨_, ofBlock_eq_ok hl.symm (Plan.block_ne_zero hblock hf) hf hp⟩

theorem gridSlabs_blocks {full block : List Nat} (hl : full.length = block.length) (h0 : 0 ∉ block) (hf : 0 ∉ full)
    (hp : full.prod < 2 ^ 64) : ∀ slab ∈ gridSlabs full block, slab.Block full := by
  intro slab h
  obtain ⟨ks, hks, rfl⟩ := List.mem_map.mp h
  have hon := onGrid_of_mem hl h0 hf hp hks
  exact ⟨hon.inside, hon.counts_ne_zero, rfl⟩

/-- The slabs of a walk are blocks, and their coordinates are those of the array. -/
theorem ofBlock_blocks {full block : List Nat} {s : Shape} (hs : Shape.ofDims full = .ok s)
    (hl : full.length = block.length) (h0 : 0 ∉ full → 0 ∉ block) :
    ∃ t slabs, ofBlock full block = .ok t ∧ t.toList = .ok slabs ∧ (∀ slab ∈ slabs, slab.Block full) ∧
      (slabs.flatMap Slab.coords).Perm (grid full) := by
  obtain ⟨-, hp⟩ := Shape.ofDims_eq_ok hs
  by_cases hf : 0 ∈ full
  · refine ⟨_, [], ofBlock_of_zero hs hl hf, rfl, by simp, ?_⟩
    rw [Odometer.grid_eq_nil hf]
    exact List.Perm.nil
  · have h0 := h0 hf
    refine ⟨_, gridSlabs full block, ofBlock_eq_ok hl h0 hf hp, toList_gridSlabs hl h0 hf hp,
      gridSlabs_blocks hl h0 hf hp, ?_⟩
    rw [gridSlabs, List.flatMap_map]
    exact coords_perm_grid hl h0

theorem planned_blocks {full : List Nat} {s : Shape} {chunk : Option (List Nat)} {budget : Nat}
    (hs : Shape.ofDims full = .ok s) (hc : Plan.Chunked chunk full) (hb : budget < 2 ^ 64) :
    ∃ t slabs, planned full chunk budget = .ok t ∧ t.toList = .ok slabs ∧ (∀ slab ∈ slabs, slab.Block full) ∧
      (slabs.flatMap Slab.coords).Perm (grid full) := by
  obtain ⟨t, ht⟩ := planned_eq_ok hs hc hb
  obtain ⟨block, hblock, hof⟩ := Outcome.bind_eq_ok.mp ht
  obtain ⟨t', slabs, hof', hslabs⟩ := ofBlock_blocks hs (length_of_ofBlock hof) (Plan.block_ne_zero hblock)
  obtain rfl := Outcome.ok.inj (hof'.symm.trans hof)
  exact ⟨t', slabs, ht, hslabs⟩

end Tiling

namespace Codec

theorem checkCount_eq_ok {s : Shape} {count : Nat} (what : String) (h : count = s.size) :
    checkCount s what count = .ok () := if_pos h

section
variable {dims : List Nat} {slab : Slab} (hd : dims.prod < 2 ^ 64) (h : slab.Block dims)
include hd h

theorem flatIndices_eq_ok : ∃ it, flatIndices (Shape.rowMajor dims) slab = .ok it ∧ it.remaining = slab.size ∧
    it.toList = .ok (slab.coords.map (dot (Shape.stridesOf dims))) := by
  obtain ⟨it, hit, hlist⟩ := Outcome.bind_eq_ok.mp (Indices.toList_ofSlab hd h.inside h.counts h.size)
  refine ⟨it, ?_, ?_, hlist⟩
  · rw [flatIndices, h.checkWithin rfl, Outcome.ok_bind]
    exact hit
  · unfold Indices.ofSlab at hit
    by_cases hr : (Shape.stridesOf dims).length = slab.rank
    · rw [if_pos hr] at hit
      obtain ⟨current, -, hit⟩ := Outcome.bind_eq_ok.mp hit
      obtain rfl := Outcome.ok.inj hit
      rfl
    · rw [if_neg hr] at hit
      cases hit

theorem encodeSlab_eq_ok {offsets lengths : List UInt64} {p : Nat → Pointer} (ho : offsets.length = dims.prod)
    (hl : lengths.length = dims.prod)
    (hp : ∀ i, i < dims.prod → pointerAt (Shape.rowMajor dims) offsets lengths i = .ok (p i)) :
    encodeSlab (Shape.rowMajor dims) slab offsets lengths =
      .ok (slab.coords.map fun c => p (dot (Shape.stridesOf dims) c)) := by
  obtain ⟨it, hit, -, hlist⟩ := flatIndices_eq_ok hd h
  rw [encodeSlab, checkCount_eq_ok _ ho, checkCount_eq_ok _ hl]
  simp only [Outcome.ok_bind, hit, hlist]
  rw [Outcome.mapM_eq_ok (g := p), List.map_map]
  · rfl
  · intro i hi
    obtain ⟨c, hc, rfl⟩ := List.mem_map.mp hi
    exact hp _ (Shape.dot_lt_prod (h.coord_lt hc))

theorem decodeSlab_eq {σ : Type} {ps : List Pointer} (hps : ps.length = slab.size)
    (visit : Nat → Pointer → Action σ Unit) :
    decodeSlab (Shape.rowMajor dims) slab ps visit =
      Action.forEach (fun (flat, p) => visit flat p) ((slab.coords.map (dot (Shape.stridesOf dims))).zip ps) := by
  obtain ⟨it, hit, hrem, hlist⟩ := flatIndices_eq_ok hd h
  have hpairs : pairs (Shape.rowMajor dims) slab ps =
      .ok ((slab.coords.map (dot (Shape.stridesOf dims))).zip ps) := by
    simp only [pairs, hit, Outcome.ok_bind, Outcome.require, hrem, hps, hlist, if_true, Outcome.pure_eq]
  unfold decodeSlab
  rw [hpairs]
  rfl

end

theorem locate_of_lt {s : Shape} (hs : s = Shape.rowMajor s.dims) {flat : Nat} (h : flat < s.size) :
    ∃ coord, s.unravel flat = .ok coord ∧
      locate s flat = s!"flat index {flat} at coordinate {Text.coordinate coord}" := by
  have hlt : flat < s.dims.prod := by rwa [hs] at h
  obtain ⟨coord, hcoord, rfl⟩ := Shape.exists_coord hlt
  have hunravel := Shape.unravel_eq_ok hcoord
  rw [← hs] at hunravel
  exact ⟨coord, hunravel, locate_eq hunravel⟩

end Codec

end Ragged

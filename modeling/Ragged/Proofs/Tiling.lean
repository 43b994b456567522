import Mathlib.Data.List.Perm.Basic
import Ragged.Proofs.Indices
import Ragged.Proofs.Outcome
import Ragged.Proofs.Plan
import Ragged.Tiling

/-!
# Walks over blocks

The blocks of an array lie on a grid, and a walk visits the positions of the grid as an odometer does. Every block
lies inside the array, and the coordinates of all blocks together are those of the array, each of them once.
-/

namespace Ragged.Tiling

open Odometer
open Slab (Inside coordsOf)

def blockCounts : List Nat → List Nat → List Nat := List.zipWith fun f b => (f + b - 1) / b

def blockStarts (block ks : List Nat) : List Nat := List.zipWith (· * ·) block ks

def countsFrom (full block starts : List Nat) : List Nat :=
  List.zipWith min block (List.zipWith (· - ·) full starts)

/-- The block at a position of the grid, cut at the far edge of the array. -/
def blockAt (full block ks : List Nat) : Slab :=
  let counts := countsFrom full block (blockStarts block ks)
  ⟨blockStarts block ks, counts, counts.prod⟩

@[simp] theorem blockCounts_cons (f b : Nat) (full block : List Nat) :
    blockCounts (f :: full) (b :: block) = (f + b - 1) / b :: blockCounts full block := rfl

@[simp] theorem blockStarts_cons (b k : Nat) (block ks : List Nat) :
    blockStarts (b :: block) (k :: ks) = b * k :: blockStarts block ks := rfl

@[simp] theorem countsFrom_cons (f b start : Nat) (full block starts : List Nat) :
    countsFrom (f :: full) (b :: block) (start :: starts) = min b (f - start) :: countsFrom full block starts :=
  rfl

/-- A position of the grid, where every extent is a word. -/
inductive OnGrid : List Nat → List Nat → List Nat → Prop
  | nil : OnGrid [] [] []
  | cons {f b k : Nat} {full block ks : List Nat} (word : f < 2 ^ 64) (pos : b ≠ 0) (lt : b * k < f)
      (rest : OnGrid full block ks) : OnGrid (f :: full) (b :: block) (k :: ks)

theorem lt_blockCount {f b k : Nat} (hb : b ≠ 0) : k < (f + b - 1) / b ↔ b * k < f := by
  have hk : b * (k + 1) = b * k + b := Nat.mul_succ b k
  rw [← Nat.succ_le_iff, Nat.le_div_iff_mul_le (Nat.pos_of_ne_zero hb), Nat.mul_comm, Nat.succ_eq_add_one]
  omega

theorem onGrid_of_lt {full block ks : List Nat} (hl : full.length = block.length) (h0 : 0 ∉ block)
    (hw : ∀ f ∈ full, f < 2 ^ 64) (hlt : List.Forall₂ (· < ·) ks (blockCounts full block)) : OnGrid full block ks := by
  induction full generalizing block ks with
  | nil =>
    obtain rfl := List.eq_nil_of_length_eq_zero hl.symm
    cases hlt
    exact .nil
  | cons f full ih =>
    obtain ⟨b, block, rfl⟩ := List.exists_cons_of_length_eq_add_one hl.symm
    obtain ⟨hb, hbs⟩ := List.ne_and_not_mem_of_not_mem_cons h0
    rw [List.forall_mem_cons] at hw
    rw [blockCounts_cons] at hlt
    obtain _ | ⟨hk, hks⟩ := hlt
    exact .cons hw.1 (Ne.symm hb) ((lt_blockCount (Ne.symm hb)).mp hk) (ih (by simpa using hl) hbs hw.2 hks)

/-! ## One block -/

section
variable {full block ks : List Nat} (h : OnGrid full block ks)
include h

theorem OnGrid.countsAt_eq_ok :
    countsAt (blockStarts block ks) block full = .ok (countsFrom full block (blockStarts block ks)) := by
  induction h with
  | nil => rfl
  | cons _ _ hlt _ ih =>
    rw [blockStarts_cons, countsFrom_cons, countsAt, Word.sub_eq_ok (Nat.le_of_lt hlt), Outcome.ok_bind, ih]
    rfl

theorem OnGrid.counts_ne_zero : 0 ∉ countsFrom full block (blockStarts block ks) := by
  induction h with
  | nil => exact List.not_mem_nil
  | cons _ hb hlt _ ih =>
    rw [blockStarts_cons, countsFrom_cons, List.mem_cons, not_or]
    exact ⟨by omega, ih⟩

theorem OnGrid.inside : Inside (blockStarts block ks) (countsFrom full block (blockStarts block ks)) full := by
  induction h with
  | nil => exact .nil
  | cons hw _ hlt _ ih =>
    rw [blockStarts_cons, countsFrom_cons]
    exact .cons (by omega) (by omega) ih

theorem OnGrid.prod_counts_le : (countsFrom full block (blockStarts block ks)).prod ≤ full.prod := by
  induction h with
  | nil => exact Nat.le_refl _
  | cons _ _ _ _ ih =>
    rw [blockStarts_cons, countsFrom_cons, List.prod_cons, List.prod_cons]
    exact Nat.mul_le_mul (by omega) ih

theorem OnGrid.aligned : List.Forall₂ (· ∣ ·) block (blockStarts block ks) := by
  induction h with
  | nil => exact .nil
  | cons _ _ _ _ ih => exact .cons (Nat.dvd_mul_right _ _) ih

theorem OnGrid.slabAt_eq_ok (hp : full.prod < 2 ^ 64) :
    slabAt full block (blockStarts block ks) = .ok (blockAt full block ks) := by
  have hle := h.prod_counts_le
  rw [slabAt, h.countsAt_eq_ok, Outcome.ok_bind, Word.product_eq_ok h.counts_ne_zero (by omega)]
  rfl

/-! ## The walk -/

theorem OnGrid.nextStarts_eq_ok :
    nextStarts (blockStarts block ks) block full =
      .ok (blockStarts block (succ (blockCounts full block) ks).1, !(succ (blockCounts full block) ks).2) := by
  induction h with
  | nil => rfl
  | @cons f b k full block ks hw hb hlt h ih =>
    have hk : b * (k + 1) = b * k + b := Nat.mul_succ b k
    rw [blockStarts_cons, blockCounts_cons, nextStarts, ih, Outcome.ok_bind]
    simp only [succ]
    cases (succ (blockCounts full block) ks).2 with
    | false => rfl
    | true =>
      simp only [Bool.not_true, Bool.false_eq_true, if_false, if_true]
      rw [Word.sub_eq_ok (Nat.le_of_lt hlt), Outcome.ok_bind]
      by_cases hn : k + 1 < (f + b - 1) / b
      · have hn' := (lt_blockCount hb).mp hn
        rw [if_pos hn, if_pos (by omega), Word.add_eq_ok (by omega), Outcome.ok_bind]
        simp [hk]
      · have hn' : ¬ b * (k + 1) < f := fun h => hn ((lt_blockCount hb).mpr h)
        rw [if_neg hn, if_neg (by omega)]
        simp

theorem OnGrid.lt : List.Forall₂ (· < ·) ks (blockCounts full block) := by
  induction h with
  | nil => exact .nil
  | cons _ hb hlt _ ih => exact .cons ((lt_blockCount hb).mpr hlt) ih

theorem OnGrid.of_lt {ls : List Nat} (hlt : List.Forall₂ (· < ·) ls (blockCounts full block)) :
    OnGrid full block ls := by
  induction h generalizing ls with
  | nil =>
    cases hlt
    exact .nil
  | cons hw hb _ _ ih =>
    obtain _ | ⟨hl, hls⟩ := hlt
    exact .cons hw hb ((lt_blockCount hb).mp hl) (ih hls)

end

/-- A walk that has still to visit these slabs: it stands on the first of them, or it has ended. -/
inductive Left (full block : List Nat) : Tiling → List Slab → Prop
  | ended : Left full block ⟨full, block, none⟩ []
  | stands {ks : List Nat} (hp : full.prod < 2 ^ 64) (h : OnGrid full block ks) :
      Left full block ⟨full, block, some (blockAt full block ks)⟩
        ((ks :: after (blockCounts full block) ks).map (blockAt full block))

section
variable {full block : List Nat} {t : Tiling} {slabs : List Slab}

theorem Left.eq (h : Left full block t slabs) : t = ⟨full, block, slabs.head?⟩ := by
  cases h <;> rfl

theorem Left.next (h : Left full block t slabs) :
    ∃ t', t.next = .ok (slabs.head?, t') ∧ Left full block t' slabs.tail := by
  cases h with
  | ended => exact ⟨_, rfl, .ended⟩
  | @stands ks hp hks =>
    have ha := after_succ hks.lt
    have hnext : nextStarts (blockAt full block ks).starts block full = _ := hks.nextStarts_eq_ok
    -- a carry out of the slowest dimension ends the walk
    by_cases hcar : (succ (blockCounts full block) ks).2 = true
    · rw [if_pos hcar] at ha
      rw [ha]
      refine ⟨_, ?_, .ended⟩
      simp [Tiling.next, successor, hnext, hcar]
    · have hon := hks.of_lt (succ_lt hks.lt)
      rw [if_neg hcar] at ha
      rw [ha]
      refine ⟨_, ?_, .stands hp hon⟩
      simp [Tiling.next, successor, hnext, hcar, hon.slabAt_eq_ok hp]

theorem Left.take (n : Nat) (h : Left full block t slabs) : t.take n = .ok (slabs.take n) := by
  induction n generalizing t slabs with
  | zero => rfl
  | succ n ih =>
    obtain ⟨t', hnext, h'⟩ := h.next
    rw [Tiling.take, hnext, Outcome.ok_bind]
    cases slabs with
    | nil => rfl
    | cons slab slabs =>
      have hrest := ih h'
      simp only [List.head?_cons, hrest, Outcome.ok_bind, Outcome.pure_eq, List.tail_cons, List.take_succ_cons]

end

/-! ## How far a walk is -/

theorem ceilDiv_le {f b : Nat} (hf : f ≠ 0) (hb : b ≠ 0) : (f + b - 1) / b ≤ f := by
  obtain ⟨c, rfl⟩ : ∃ c, b = c + 1 := ⟨b - 1, by omega⟩
  have hsum : f * (c + 1) = f * c + f := by ring
  have hc : c ≤ f * c := Nat.le_mul_of_pos_left _ (by omega)
  exact Nat.div_le_of_le_mul (by rw [Nat.mul_comm]; omega)

section
variable {full block ks : List Nat} (h : OnGrid full block ks)
include h

theorem OnGrid.prod_blockCounts_le : (blockCounts full block).prod ≤ full.prod := by
  induction h with
  | nil => exact Nat.le_refl _
  | cons _ hb hlt _ ih =>
    rw [blockCounts_cons, List.prod_cons, List.prod_cons]
    exact Nat.mul_le_mul (ceilDiv_le (by omega) hb) ih

theorem OnGrid.rankOf_eq_ok (hp : full.prod < 2 ^ 64) :
    rankOf (blockStarts block ks) full block =
      .ok (dot (Shape.stridesOf (blockCounts full block)) ks, (blockCounts full block).prod) := by
  induction h with
  | nil => rfl
  | @cons f b k full block ks _ hb hlt h ih =>
    have hle := h.prod_blockCounts_le
    have hbefore := Shape.dot_lt_prod h.lt
    have hk : k + 1 ≤ (f + b - 1) / b := (lt_blockCount hb).mpr hlt
    have hrows := Nat.mul_le_mul_right (blockCounts full block).prod hk
    have hall := Nat.mul_le_mul (ceilDiv_le (show f ≠ 0 by omega) hb) hle
    have hpos : full.prod ≤ f * full.prod := Nat.le_mul_of_pos_left _ (by omega)
    rw [List.prod_cons] at hp
    rw [Nat.succ_mul] at hrows
    rw [blockStarts_cons, rankOf, ih (by omega), Outcome.ok_bind]
    simp only [Word.div_eq_ok hb, Outcome.ok_bind, Nat.mul_div_cancel_left k (Nat.pos_of_ne_zero hb)]
    rw [Word.mul_eq_ok (by omega), Outcome.ok_bind, Word.add_eq_ok (by omega), Outcome.ok_bind, Word.ceilDiv_eq_ok hb,
      Outcome.ok_bind, Word.mul_eq_ok (by rw [Nat.mul_comm]; omega), blockCounts_cons, Shape.stridesOf, dot_cons,
      List.prod_cons, Nat.mul_comm _ k, Nat.mul_comm _ ((f + b - 1) / b), Nat.add_comm (k * _)]
    rfl

end

theorem Left.remaining {full block : List Nat} {t : Tiling} {slabs : List Slab} (h : Left full block t slabs) :
    t.remaining = .ok slabs.length := by
  cases h with
  | ended => rfl
  | @stands ks hp hks =>
    have hrank : rankOf (blockAt full block ks).starts full block = _ := hks.rankOf_eq_ok hp
    have hlen := Shape.length_after hks.lt
    simp only [Tiling.remaining, hrank, Outcome.ok_bind]
    rw [Word.sub_eq_ok (by omega), List.length_map, List.length_cons]
    congr 1
    omega

/-! ## The blocks cover the array -/

theorem flatMap_swap {α β γ : Type} (l : List α) (m : List β) (f : α → β → List γ) :
    (l.flatMap fun a => m.flatMap (f a)).Perm (m.flatMap fun b => l.flatMap fun a => f a b) := by
  induction l with
  | nil => simp
  | cons a l ih =>
    simp only [List.flatMap_cons]
    exact (ih.append_left _).trans (List.flatMap_append_perm m (f a) _)

theorem flatMap_segments (f b n : Nat) :
    ((List.range n).flatMap fun k => List.range' (b * k) (min b (f - b * k))) = List.range (min (b * n) f) := by
  induction n with
  | zero => simp
  | succ n ih =>
    have hb : b * (n + 1) = b * n + b := Nat.mul_succ b n
    rw [List.range_succ, List.flatMap_append, ih, List.flatMap_singleton]
    by_cases h : b * n ≤ f
    · rw [Nat.min_eq_left h, show min (b * (n + 1)) f = b * n + min b (f - b * n) by omega, List.range_add,
        List.range'_eq_map_range]
    · rw [show min b (f - b * n) = 0 by omega, show min (b * (n + 1)) f = min (b * n) f by omega]
      simp

theorem flatMap_blockSegments {f b : Nat} (hb : b ≠ 0) :
    ((List.range ((f + b - 1) / b)).flatMap fun k => List.range' (b * k) (min b (f - b * k))) = List.range f := by
  have hcover : min (b * ((f + b - 1) / b)) f = f := by
    rcases Nat.eq_zero_or_pos f with rfl | hf
    · simp
    · apply Nat.min_eq_right
      by_contra h
      exact Nat.lt_irrefl _ ((lt_blockCount hb).mpr (Nat.lt_of_not_le h))
  rw [flatMap_segments, hcover]

theorem coords_blockAt_cons (f b k : Nat) (full block ks : List Nat) :
    (blockAt (f :: full) (b :: block) (k :: ks)).coords =
      (List.range' (b * k) (min b (f - b * k))).flatMap fun c => (blockAt full block ks).coords.map (c :: ·) := rfl

/-- One dimension after the other: the coordinates of the faster ones are those of an array for every block row,
and the block rows of the slower one are its extent, cut in segments. -/
theorem coords_perm_grid {full block : List Nat} (hl : full.length = block.length) (h0 : 0 ∉ block) :
    ((grid (blockCounts full block)).flatMap fun ks => (blockAt full block ks).coords).Perm (grid full) := by
  induction full generalizing block with
  | nil =>
    obtain rfl := List.eq_nil_of_length_eq_zero hl.symm
    exact List.Perm.refl _
  | cons f full ih =>
    obtain ⟨b, block, rfl⟩ := List.exists_cons_of_length_eq_add_one hl.symm
    obtain ⟨hb, hbs⟩ := List.ne_and_not_mem_of_not_mem_cons h0
    have ih := ih (show full.length = block.length by simpa using hl) hbs
    have hblocks : ∀ k, ((grid (blockCounts full block)).flatMap fun ks =>
        (blockAt (f :: full) (b :: block) (k :: ks)).coords).Perm
          ((List.range' (b * k) (min b (f - b * k))).flatMap fun c => (grid full).map (c :: ·)) := by
      intro k
      simp only [coords_blockAt_cons]
      apply (flatMap_swap _ _ _).trans
      apply List.Perm.flatMap_left
      intro c _
      rw [← List.map_flatMap]
      exact ih.map _
    simp only [blockCounts_cons, grid, List.flatMap_assoc, List.flatMap_map]
    apply (List.Perm.flatMap_left _ fun k _ => hblocks k).trans
    rw [← List.flatMap_assoc, flatMap_blockSegments (Ne.symm hb)]

theorem blockStarts_lt {block ks ls : List Nat} (h0 : 0 ∉ block) (hk : ks.length = block.length) (h : ks < ls)
    (hl : ls.length = block.length) : blockStarts block ks < blockStarts block ls := by
  induction block generalizing ks ls with
  | nil =>
    rw [List.eq_nil_of_length_eq_zero hk, List.eq_nil_of_length_eq_zero hl] at h
    exact absurd h (List.lt_irrefl _)
  | cons b block ih =>
    obtain ⟨k, ks, rfl⟩ := List.exists_cons_of_length_eq_add_one hk
    obtain ⟨l, ls, rfl⟩ := List.exists_cons_of_length_eq_add_one hl
    obtain ⟨hb, hbs⟩ := List.ne_and_not_mem_of_not_mem_cons h0
    rw [blockStarts_cons, blockStarts_cons, List.cons_lt_cons_iff]
    rcases List.cons_lt_cons_iff.mp h with hlt | ⟨rfl, hlt⟩
    · exact Or.inl (Nat.mul_lt_mul_of_pos_left hlt (Nat.pos_of_ne_zero (Ne.symm hb)))
    · exact Or.inr ⟨rfl, ih hbs (by simpa using hk) hlt (by simpa using hl)⟩

theorem take_none (full block : List Nat) (n : Nat) : take n ⟨full, block, none⟩ = .ok [] := by
  cases n <;> rfl

/-! ## What a walk owes -/

/-- The slabs of a walk cover a shape: they come in order and lie inside the shape as blocks do, nothing follows
them, and their indices are all the numbers of the elements, each of them once. -/
structure Covers (t : Tiling) (s : Shape) (slabs : List Slab) : Prop where
  drained : ∀ n, slabs.length ≤ n → t.take n = .ok slabs
  within : ∀ slab ∈ slabs, slab.checkWithin s = .ok ()
  aligned : ∀ slab ∈ slabs, List.Forall₂ (· ∣ ·) t.block slab.starts
  counts : ∀ slab ∈ slabs, slab.counts = List.zipWith min t.block (List.zipWith (· - ·) t.full slab.starts)
  sorted : slabs.Pairwise fun a b => a.starts < b.starts
  indices : ∃ indices, slabs.mapM (fun slab => do (← Indices.ofSlab s.strides slab).toList) = .ok indices ∧
    indices.flatten.Perm (List.range s.size)

theorem isVoid_of_zero {full block : List Nat} (hf : 0 ∈ full) : isVoid full block = true := by
  simp [isVoid, hf]

theorem isVoid_eq_false {full block : List Nat} (hf : 0 ∉ full) (h0 : 0 ∉ block) : isVoid full block = false := by
  cases block with
  | nil => simp [isVoid, hf]
  | cons b block =>
    have hb := (List.ne_and_not_mem_of_not_mem_cons h0).1
    simp [isVoid, hf, Ne.symm hb]

theorem covers_nil {full block : List Nat} (hf : 0 ∈ full) :
    Covers ⟨full, block, none⟩ (Shape.rowMajor full) [] where
  drained n _ := take_none full block n
  within _ h := absurd h List.not_mem_nil
  aligned _ h := absurd h List.not_mem_nil
  counts _ h := absurd h List.not_mem_nil
  sorted := List.Pairwise.nil
  indices := by
    refine ⟨[], rfl, ?_⟩
    rw [Shape.rowMajor_size, List.prod_eq_zero hf]
    exact List.Perm.refl _

theorem blockStarts_origin {full block : List Nat} (hl : full.length = block.length) :
    blockStarts block (origin full) = List.replicate full.length 0 := by
  induction full generalizing block with
  | nil =>
    obtain rfl := List.eq_nil_of_length_eq_zero hl.symm
    rfl
  | cons f full ih =>
    obtain ⟨b, block, rfl⟩ := List.exists_cons_of_length_eq_add_one hl.symm
    rw [origin_cons, blockStarts_cons, ih (by simpa using hl)]
    rfl

theorem blockCount_eq_zero {f b : Nat} : (f + b - 1) / b = 0 ↔ f = 0 ∨ b = 0 := by
  by_cases hb : b = 0
  · simp [hb]
  · rw [Nat.div_eq_zero_iff]
    omega

theorem zero_mem_blockCounts {full block : List Nat} (hl : full.length = block.length) :
    0 ∈ blockCounts full block ↔ 0 ∈ full ∨ 0 ∈ block := by
  induction full generalizing block with
  | nil =>
    obtain rfl := List.eq_nil_of_length_eq_zero hl.symm
    simp [blockCounts]
  | cons f full ih =>
    obtain ⟨b, block, rfl⟩ := List.exists_cons_of_length_eq_add_one hl.symm
    have ih := @ih block (by simpa using hl)
    have hhead := @blockCount_eq_zero f b
    rw [blockCounts_cons, List.mem_cons, List.mem_cons, List.mem_cons, ih, eq_comm, hhead, eq_comm (a := f),
      eq_comm (a := b)]
    tauto

section
variable {full block : List Nat} (hl : full.length = block.length) (h0 : 0 ∉ block) (hf : 0 ∉ full)
  (hp : full.prod < 2 ^ 64)

def gridSlabs (full block : List Nat) : List Slab := (grid (blockCounts full block)).map (blockAt full block)

theorem length_gridSlabs (full block : List Nat) : (gridSlabs full block).length = (blockCounts full block).prod := by
  rw [gridSlabs, List.length_map, length_grid]

include hl h0 hf hp in
theorem onGrid_of_mem {ks : List Nat} (h : ks ∈ grid (blockCounts full block)) : OnGrid full block ks :=
  onGrid_of_lt hl h0 (Shape.extent_lt hf hp) (mem_grid.mp h)

include hl h0 hf in
theorem blockCounts_ne_zero : 0 ∉ blockCounts full block := by
  rw [zero_mem_blockCounts hl]
  exact not_or.mpr ⟨hf, h0⟩

include hl h0 hf in
theorem grid_blockCounts :
    grid (blockCounts full block) = origin full :: after (blockCounts full block) (origin full) := by
  have ho : origin (blockCounts full block) = origin full := by simp [origin, blockCounts, hl]
  rw [grid_eq (blockCounts_ne_zero hl h0 hf), ho]

include hl h0 hf hp in
theorem origin_onGrid : OnGrid full block (origin full) := by
  apply onGrid_of_mem hl h0 hf hp
  rw [grid_blockCounts hl h0 hf]
  exact List.mem_cons_self ..

include hl h0 hf hp in
theorem left_gridSlabs :
    Left full block ⟨full, block, some (blockAt full block (origin full))⟩ (gridSlabs full block) := by
  rw [gridSlabs, grid_blockCounts hl h0 hf]
  exact .stands hp (origin_onGrid hl h0 hf hp)

include hl h0 hf hp in
theorem take_gridSlabs {n : Nat} (hn : (gridSlabs full block).length ≤ n) :
    take n ⟨full, block, some (blockAt full block (origin full))⟩ = .ok (gridSlabs full block) := by
  rw [(left_gridSlabs hl h0 hf hp).take, List.take_of_length_le hn]

include hl h0 hf hp in
theorem toList_gridSlabs :
    toList ⟨full, block, some (blockAt full block (origin full))⟩ = .ok (gridSlabs full block) := by
  rw [toList, (left_gridSlabs hl h0 hf hp).remaining, Outcome.ok_bind]
  exact take_gridSlabs hl h0 hf hp (Nat.le_refl _)

include hl h0 hf hp in
theorem gridSlabs_covers :
    Covers ⟨full, block, some (blockAt full block (origin full))⟩ (Shape.rowMajor full) (gridSlabs full block) where
  drained n hn := take_gridSlabs hl h0 hf hp hn
  within slab h := by
    obtain ⟨ks, hks, rfl⟩ := List.mem_map.mp h
    have hin := (onGrid_of_mem hl h0 hf hp hks).inside
    exact (Slab.checkWithin_eq_ok hin.length_eq.1).mpr hin
  aligned slab h := by
    obtain ⟨ks, hks, rfl⟩ := List.mem_map.mp h
    exact (onGrid_of_mem hl h0 hf hp hks).aligned
  counts slab h := by
    obtain ⟨ks, _, rfl⟩ := List.mem_map.mp h
    rfl
  sorted := by
    have hlen : ∀ ks ∈ grid (blockCounts full block), ks.length = block.length := by
      intro ks hks
      rw [(mem_grid.mp hks).length_eq]
      simp [blockCounts, hl]
    rw [gridSlabs, List.pairwise_map]
    apply (grid_sorted _).imp_of_mem
    intro ks ls hks hls hlt
    exact blockStarts_lt h0 (hlen ks hks) hlt (hlen ls hls)
  indices := by
    have hok : ∀ slab ∈ gridSlabs full block,
        (do (← Indices.ofSlab (Shape.stridesOf full) slab).toList) =
          .ok (slab.coords.map (dot (Shape.stridesOf full))) := by
      intro slab h
      obtain ⟨ks, hks, rfl⟩ := List.mem_map.mp h
      have hon := onGrid_of_mem hl h0 hf hp hks
      exact Indices.toList_ofSlab hp hon.inside hon.counts_ne_zero rfl
    refine ⟨_, Outcome.mapM_eq_ok hok, ?_⟩
    rw [← List.flatMap_def, ← List.map_flatMap, gridSlabs, List.flatMap_map, Shape.rowMajor_size,
      ← Shape.map_dot_grid full]
    exact (coords_perm_grid hl h0).map _

include hl h0 hf hp in
theorem ofBlock_eq_ok :
    ofBlock full block = .ok ⟨full, block, some (blockAt full block (origin full))⟩ := by
  have hslab := (origin_onGrid hl h0 hf hp).slabAt_eq_ok hp
  rw [blockStarts_origin hl] at hslab
  simp [ofBlock, Shape.ofDims_of_prod hf hp, Outcome.require, hl, isVoid_eq_false hf h0, h0, hl ▸ hslab]

end

theorem ofBlock_of_zero {full block : List Nat} {s : Shape} (hs : Shape.ofDims full = .ok s)
    (hl : full.length = block.length) (hf : 0 ∈ full) : ofBlock full block = .ok ⟨full, block, none⟩ := by
  simp [ofBlock, hs, Outcome.require, hl, isVoid_of_zero hf]

theorem ofBlock_covers {full block : List Nat} {s : Shape} (hs : Shape.ofDims full = .ok s)
    (hl : full.length = block.length) (h0 : 0 ∉ full → 0 ∉ block) :
    ∃ t slabs, ofBlock full block = .ok t ∧ t.full = full ∧ t.block = block ∧ t.toList = .ok slabs ∧
      t.Covers s slabs := by
  obtain ⟨rfl, hp⟩ := Shape.ofDims_eq_ok hs
  by_cases hf : 0 ∈ full
  · exact ⟨_, [], ofBlock_of_zero hs hl hf, rfl, rfl, rfl, covers_nil hf⟩
  · exact ⟨_, gridSlabs full block, ofBlock_eq_ok hl (h0 hf) hf hp, rfl, rfl,
      toList_gridSlabs hl (h0 hf) hf hp, gridSlabs_covers hl (h0 hf) hf hp⟩

theorem length_of_ofBlock {full block : List Nat} {t : Tiling} (h : ofBlock full block = .ok t) :
    full.length = block.length := by
  obtain ⟨_, _, h⟩ := Outcome.bind_eq_ok.mp h
  obtain ⟨⟨⟩, hr, _⟩ := Outcome.bind_eq_ok.mp h
  exact Outcome.require_eq_ok.mp hr

/-- Blocks without a zero extent, and planned blocks whatever the chunks and the budget, visit every element of an
accepted shape exactly once. -/
theorem walk_covers {full : List Nat} {s : Shape} (hs : Shape.ofDims full = .ok s) :
    s.size = full.prod ∧
    (∀ block, block.length = full.length → 0 ∉ block →
      ∃ t slabs, ofBlock full block = .ok t ∧ t.full = full ∧ t.block = block ∧ t.toList = .ok slabs ∧
        t.Covers s slabs) ∧
    ∀ chunk budget t, planned full chunk budget = .ok t →
      t.full = full ∧ Plan.block chunk full budget = .ok t.block ∧
        ∃ slabs, t.toList = .ok slabs ∧ t.Covers s slabs := by
  refine ⟨?_, fun block hl h0 => ofBlock_covers hs hl.symm fun _ => h0, ?_⟩
  · obtain ⟨rfl, _⟩ := Shape.ofDims_eq_ok hs
    rfl
  · intro chunk budget t ht
    obtain ⟨block, hblock, ht⟩ := Outcome.bind_eq_ok.mp ht
    obtain ⟨t', slabs, hok, hfull, rfl, hlist, hcov⟩ :=
      ofBlock_covers hs (length_of_ofBlock ht) (Plan.block_ne_zero hblock)
    rw [ht] at hok
    obtain rfl := Outcome.ok.inj hok
    exact ⟨hfull, hblock, slabs, hlist, hcov⟩

theorem walk_covers_three_by_five :
    Shape.ofDims [3, 5] = .ok (Shape.rowMajor [3, 5]) ∧
    (∃ t slabs, ofBlock [3, 5] [2, 7] = .ok t ∧ t.toList = .ok slabs ∧ t.Covers (Shape.rowMajor [3, 5]) slabs ∧
      slabs = [⟨[0, 0], [2, 5], 10⟩, ⟨[2, 0], [1, 5], 5⟩]) ∧
    ∃ t slabs, planned [3, 5] (some [2, 2]) 4 = .ok t ∧ t.toList = .ok slabs ∧
      t.Covers (Shape.rowMajor [3, 5]) slabs ∧
      slabs.map Slab.starts = [[0, 0], [0, 2], [0, 4], [2, 0], [2, 2], [2, 4]] := by
  obtain ⟨_, hblock, hplanned⟩ := @walk_covers [3, 5] (Shape.rowMajor [3, 5]) rfl
  obtain ⟨t, slabs, ht, _, _, hlist, hcov⟩ := hblock [2, 7] rfl (by decide)
  obtain ⟨_, _, slabs', hlist', hcov'⟩ := hplanned (some [2, 2]) 4 _ rfl
  refine ⟨rfl, ⟨t, slabs, ht, hlist, hcov, ?_⟩, ⟨_, slabs', rfl, hlist', hcov', ?_⟩⟩
  · obtain rfl := Outcome.ok.inj ht
    exact (Outcome.ok.inj hlist).symm
  · obtain rfl := Outcome.ok.inj hlist'
    rfl

end Ragged.Tiling

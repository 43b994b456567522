import Ragged.Proofs.Greedy
import Ragged.Proofs.Progress

/-!
# Larger budgets

A larger budget makes a block larger or leaves it as it is, in every dimension, so that an array is never cut into more
blocks. A faster extent that grows more cannot take away the room of a slower one: a slower extent grows only where all
faster ones have reached the end of the array, and there they cannot grow more.
-/

namespace Ragged

namespace Plan

/-! ## Two greedy blocks -/

theorem Greedy.between {budget rest : Nat} {base full block : List Nat} (h : Greedy budget rest base full block)
    (hle : List.Forall₂ (· ≤ ·) base full) :
    List.Forall₂ (· ≤ ·) base block ∧ List.Forall₂ (· ≤ ·) block full := by
  obtain ⟨hbase, hblock⟩ := h.grown.length_eq
  have hat : ∀ p (hb : p < base.length) (hx : p < block.length) (hf : p < full.length),
      base[p] ≤ block[p] ∧ block[p] ≤ full[p] := by
    intro p hb hx hf
    obtain ⟨hbx, hxf, -⟩ := h.extent hle (List.getElem?_eq_getElem hb) (List.getElem?_eq_getElem hf)
      (List.getElem?_eq_getElem hx)
    exact ⟨hbx, hxf⟩
  constructor
  · exact List.forall₂_iff_get.mpr ⟨by omega, fun p hb hx => (hat p hb hx (by omega)).1⟩
  · exact List.forall₂_iff_get.mpr ⟨hblock, fun p hx hf => (hat p (by omega) hx hf).2⟩

/-- Where the smaller budget has room for two blocks with all faster extents at the end of the array, the larger one has
room for two blocks whatever its faster extents are. -/
theorem room_of_room {small large size : Nat} {full block : List Nat} (hle : small ≤ large)
    (hblock : List.Forall₂ (· ≤ ·) block full) (hpos : size * block.prod ≠ 0) (hroom : 1 < small / (size * full.prod)) :
    1 < large / (size * block.prod) :=
  calc 1 < small / (size * full.prod) := hroom
    _ ≤ large / (size * full.prod) := Nat.div_le_div_right hle
    _ ≤ large / (size * block.prod) :=
      Nat.div_le_div_left (Nat.mul_le_mul_left _ hblock.prod_le_prod') (Nat.pos_of_ne_zero hpos)

theorem Greedy.mono {small large rest : Nat} {base full block block' : List Nat} (hle : small ≤ large)
    (hbase : List.Forall₂ (· ≤ ·) base full) (hpos : rest * base.prod ≠ 0) (h : Greedy small rest base full block)
    (h' : Greedy large rest base full block') : List.Forall₂ (· ≤ ·) block block' := by
  induction h generalizing block' with
  | nil rest =>
    cases h'
    exact .nil
  | @kept rest b d base full block faster _ ih =>
    obtain _ | ⟨hd, hbase⟩ := hbase
    rw [List.prod_cons, ← Nat.mul_assoc] at hpos
    cases h' with
    | kept faster' _ => exact .cons (Nat.le_refl b) (ih hbase hpos faster')
    | scaled _ room' =>
      have hgrows : b ≤ b * (large / (rest * b * full.prod)) := Nat.le_mul_of_pos_right _ (Nat.lt_of_succ_lt room')
      exact .cons (Nat.le_min.mpr ⟨hd, hgrows⟩) (faster.between hbase).2
  | @scaled rest b d base full _ room =>
    obtain _ | ⟨hd, hbase⟩ := hbase
    rw [List.prod_cons, ← Nat.mul_assoc] at hpos
    cases h' with
    | @kept _ _ _ _ _ block' faster' room' =>
      obtain ⟨hgrown, hshort⟩ := faster'.between hbase
      have hpos' : rest * b * block'.prod ≠ 0 :=
        Nat.ne_of_gt (Nat.lt_of_lt_of_le (Nat.pos_of_ne_zero hpos) (Nat.mul_le_mul_left _ hgrown.prod_le_prod'))
      exact absurd room' (Nat.not_le_of_lt (room_of_room hle hshort hpos' room))
    | scaled _ _ =>
      have hmore : b * (small / (rest * b * full.prod)) ≤ b * (large / (rest * b * full.prod)) :=
        Nat.mul_le_mul_left _ (Nat.div_le_div_right hle)
      exact .cons (by omega) (List.forall₂_same.mpr fun _ _ => Nat.le_refl _)

/-! ## Two plans -/

def Accepts (chunk : Option (List Nat)) (full : List Nat) : Prop :=
  (unit chunk full).length = full.length ∧ ¬ Uncovered (unit chunk full) full

theorem accepts_of_block {chunk : Option (List Nat)} {full block : List Nat} {budget : Nat}
    (h : Plan.block chunk full budget = .ok block) : Accepts chunk full := by
  by_cases hl : (unit chunk full).length = full.length
  · refine ⟨hl, fun hu => ?_⟩
    rw [block_of_uncovered budget hl hu] at h
    cases h
  · rw [block_of_rank budget hl] at h
    cases h

section
variable {chunk : Option (List Nat)} {full : List Nat} (hc : Accepts chunk full) (hw : ∀ d ∈ full, d < 2 ^ 64)
include hc hw

theorem Accepts.block_cases {budget : Nat} (hb : budget < 2 ^ 64) :
    (0 ∈ full ∧ Plan.block chunk full budget = .ok (List.replicate full.length 0)) ∨
      (0 ∉ full ∧ ∃ block, Plan.block chunk full budget = .ok block ∧
        Greedy budget 1 (List.zipWith min (unit chunk full) full) full block) := by
  by_cases hz : 0 ∈ full
  · exact .inl ⟨hz, block_of_zero budget hc.1 hc.2 hz⟩
  · exact .inr ⟨hz, block_of_pos budget hc.1 hc.2 hz hw hb⟩

theorem Accepts.exists_block {budget : Nat} (hb : budget < 2 ^ 64) :
    ∃ block, Plan.block chunk full budget = .ok block ∧ full.length = block.length := by
  rcases hc.block_cases hw hb with ⟨-, h⟩ | ⟨-, block, h, hgreedy⟩
  · exact ⟨_, h, List.length_replicate.symm⟩
  · exact ⟨block, h, hgreedy.grown.length_eq.2.symm⟩

theorem Accepts.block_le {small large : Nat} (hle : small ≤ large) (hl : large < 2 ^ 64) {block block' : List Nat}
    (h : Plan.block chunk full small = .ok block) (h' : Plan.block chunk full large = .ok block') :
    List.Forall₂ (· ≤ ·) block block' := by
  have hs : small < 2 ^ 64 := Nat.lt_of_le_of_lt hle hl
  rcases hc.block_cases hw hs with ⟨hz, hvoid⟩ | ⟨hz, _, hblock, hgreedy⟩
  · rw [block_of_zero large hc.1 hc.2 hz, ← hvoid, h] at h'
    obtain rfl := Outcome.ok.inj h'
    exact List.forall₂_same.mpr fun _ _ => Nat.le_refl _
  · obtain rfl := Outcome.ok.inj (hblock.symm.trans h)
    obtain ⟨_, hblock', hgreedy'⟩ := block_of_pos large hc.1 hc.2 hz hw hl
    obtain rfl := Outcome.ok.inj (hblock'.symm.trans h')
    have hpos : 1 * (List.zipWith min (unit chunk full) full).prod ≠ 0 :=
      Nat.mul_ne_zero Nat.one_ne_zero (List.prod_ne_zero (zipWith_min_ne_zero hc.2 hz))
    exact hgreedy.mono hle (zipWith_min_le hc.1) hpos hgreedy'

end

end Plan

/-! ## Two walks -/

namespace Tiling

theorem blockCount_anti {f b b' : Nat} (hb : b ≠ 0) (hle : b ≤ b') : (f + b' - 1) / b' ≤ (f + b - 1) / b := by
  apply Nat.le_of_not_lt
  intro hlt
  -- a place that only the larger blocks had would lie within the extent for the smaller ones as well
  have hin := (lt_blockCount (show b' ≠ 0 by omega)).mp hlt
  have hsmaller : b * ((f + b - 1) / b) ≤ b' * ((f + b - 1) / b) := Nat.mul_le_mul_right _ hle
  exact Nat.lt_irrefl _ ((lt_blockCount hb).mpr (Nat.lt_of_le_of_lt hsmaller hin))

theorem blockCounts_anti {full block block' : List Nat} (h0 : 0 ∉ block) (hle : List.Forall₂ (· ≤ ·) block block') :
    List.Forall₂ (· ≤ ·) (blockCounts full block') (blockCounts full block) := by
  induction hle generalizing full with
  | nil =>
    cases full with
    | nil => exact .nil
    | cons f full => exact .nil
  | cons hb _ ih =>
    obtain ⟨hb0, hrest⟩ := List.ne_and_not_mem_of_not_mem_cons h0
    cases full with
    | nil => exact .nil
    | cons f full => exact .cons (blockCount_anti (Ne.symm hb0) hb) (ih hrest)

theorem slabCount_eq_ok {full block : List Nat} {t : Tiling} (h : ofBlock full block = .ok t) :
    t.slabCount = .ok (blockCounts full block).prod := by
  rw [slabCount_ofBlock h (ofBlock_left h), length_gridSlabs]

theorem exists_planned_iff {full : List Nat} (hw : ∀ d ∈ full, d < 2 ^ 64) (chunk : Option (List Nat)) {budget : Nat}
    (hb : budget < 2 ^ 64) :
    (∃ t, planned full chunk budget = .ok t) ↔ (∃ s, Shape.ofDims full = .ok s) ∧ Plan.Accepts chunk full := by
  constructor
  · rintro ⟨t, h⟩
    obtain ⟨block, hblock, h⟩ := Outcome.bind_eq_ok.mp h
    obtain ⟨s, hs, -⟩ := Outcome.bind_eq_ok.mp h
    exact ⟨⟨s, hs⟩, Plan.accepts_of_block hblock⟩
  · rintro ⟨⟨s, hs⟩, hc⟩
    obtain ⟨block, hblock, hl⟩ := hc.exists_block hw hb
    obtain ⟨t, -, ht, -⟩ := ofBlock_covers hs hl (Plan.block_ne_zero hblock)
    exact ⟨t, by rw [planned, hblock, Outcome.ok_bind, ht]⟩

theorem planned_slabCount_le {full : List Nat} (hw : ∀ d ∈ full, d < 2 ^ 64) {chunk : Option (List Nat)}
    {small large : Nat} (hle : small ≤ large) (hl : large < 2 ^ 64) {t t' : Tiling}
    (h : planned full chunk small = .ok t) (h' : planned full chunk large = .ok t') :
    ∃ n n', t.slabCount = .ok n ∧ t'.slabCount = .ok n' ∧ n' ≤ n := by
  obtain ⟨block, hblock, h⟩ := Outcome.bind_eq_ok.mp h
  obtain ⟨block', hblock', h'⟩ := Outcome.bind_eq_ok.mp h'
  refine ⟨_, _, slabCount_eq_ok h, slabCount_eq_ok h', ?_⟩
  by_cases hf : 0 ∈ full
  · rw [List.prod_eq_zero ((zero_mem_blockCounts (length_of_ofBlock h')).mpr (.inl hf))]
    exact Nat.zero_le _
  · have hblocks := (Plan.accepts_of_block hblock).block_le hw hle hl hblock hblock'
    exact (blockCounts_anti (Plan.block_ne_zero hblock hf) hblocks).prod_le_prod'

end Tiling

/-- Whether an array is planned, and walked, does not depend on the budget. Of two budgets the larger one has the larger
block, or the same, in every dimension, and its walk has no more slabs. -/
theorem larger_budget_larger_blocks (chunk : Option (List Nat)) {full : List Nat} (hw : ∀ d ∈ full, d < 2 ^ 64)
    {small large : Nat} (hle : small ≤ large) (hl : large < 2 ^ 64) :
    ((∃ block, Plan.block chunk full small = .ok block) ↔ ∃ block, Plan.block chunk full large = .ok block) ∧
    (∀ block block', Plan.block chunk full small = .ok block → Plan.block chunk full large = .ok block' →
      List.Forall₂ (· ≤ ·) block block') ∧
    ((∃ t, Tiling.planned full chunk small = .ok t) ↔ ∃ t, Tiling.planned full chunk large = .ok t) ∧
    ∀ t t', Tiling.planned full chunk small = .ok t → Tiling.planned full chunk large = .ok t' →
      ∃ n n', t.slabCount = .ok n ∧ t'.slabCount = .ok n' ∧ n' ≤ n := by
  have hs : small < 2 ^ 64 := Nat.lt_of_le_of_lt hle hl
  refine ⟨?_, ?_, ?_, ?_⟩
  · constructor
    · rintro ⟨block, h⟩
      obtain ⟨block', h', -⟩ := (Plan.accepts_of_block h).exists_block hw hl
      exact ⟨block', h'⟩
    · rintro ⟨block', h'⟩
      obtain ⟨block, h, -⟩ := (Plan.accepts_of_block h').exists_block hw hs
      exact ⟨block, h⟩
  · intro block block' h h'
    exact (Plan.accepts_of_block h).block_le hw hle hl h h'
  · rw [Tiling.exists_planned_iff hw chunk hs, Tiling.exists_planned_iff hw chunk hl]
  · intro t t' h h'
    exact Tiling.planned_slabCount_le hw hle hl h h'

theorem larger_budget_larger_blocks_of_two_rows :
    Plan.block (some [2, 2]) [8, 8] 16 = .ok [2, 8] ∧ Plan.block (some [2, 2]) [8, 8] 40 = .ok [4, 8] ∧
    List.Forall₂ (· ≤ ·) [2, 8] [4, 8] ∧
    ∃ t t', Tiling.planned [8, 8] (some [2, 2]) 16 = .ok t ∧ Tiling.planned [8, 8] (some [2, 2]) 40 = .ok t' ∧
      ∃ n n', t.slabCount = .ok n ∧ t'.slabCount = .ok n' ∧ n' ≤ n ∧ (n, n') = (4, 2) := by
  have hsmall : Plan.block (some [2, 2]) [8, 8] 16 = .ok [2, 8] := by decide
  have hlarge : Plan.block (some [2, 2]) [8, 8] 40 = .ok [4, 8] := by decide
  obtain ⟨-, hblocks, -, hwalks⟩ :=
    larger_budget_larger_blocks (some [2, 2]) (show ∀ d ∈ [8, 8], d < 2 ^ 64 by decide) (show 16 ≤ 40 by decide)
      (by decide)
  obtain ⟨n, n', hn, hn', hle⟩ := hwalks _ _ rfl rfl
  refine ⟨hsmall, hlarge, hblocks _ _ hsmall hlarge, _, _, rfl, rfl, n, n', hn, hn', hle, ?_⟩
  obtain rfl : 4 = n := Outcome.ok.inj (.trans (by decide) hn)
  obtain rfl : 2 = n' := Outcome.ok.inj (.trans (by decide) hn')
  rfl

end Ragged

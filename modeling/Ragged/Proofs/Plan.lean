import Ragged.Plan
import Ragged.Proofs.Numbering

/-!
# Block plans

An array that a store can hold has a plan for every budget. Where no extent is zero, no extent of the planned block
is zero either, so the block can cover the array.
-/

namespace Ragged.Plan

/-! ## Chunks that are cut to the array -/

def Uncovered (chunk full : List Nat) : Prop := ∃ p f : Nat, chunk[p]? = some 0 ∧ full[p]? = some f ∧ f ≠ 0

theorem uncovered_cons {b d : Nat} {bs ds : List Nat} :
    Uncovered (b :: bs) (d :: ds) ↔ (b = 0 ∧ d ≠ 0) ∨ Uncovered bs ds := by
  constructor
  · rintro ⟨p, f, hb, hd, hf⟩
    cases p with
    | zero =>
      obtain rfl := Option.some.inj hb
      obtain rfl := Option.some.inj hd
      exact .inl ⟨rfl, hf⟩
    | succ p => exact .inr ⟨p, f, hb, hd, hf⟩
  · rintro (⟨rfl, hd⟩ | ⟨p, f, hb, hd, hf⟩)
    · exact ⟨0, d, rfl, rfl, hd⟩
    · exact ⟨p + 1, f, hb, hd, hf⟩

theorem not_uncovered {bs : List Nat} (h0 : 0 ∉ bs) (ds : List Nat) : ¬ Uncovered bs ds := by
  rintro ⟨p, f, hb, -⟩
  exact h0 (List.mem_of_getElem? hb)

theorem clamp_cases (chunk bs ds : List Nat) :
    (Uncovered bs ds ∧
        clamp chunk bs ds = .fail (.invalidArgument s!"chunk shape {Text.extents chunk} has a zero extent")) ∨
      (¬ Uncovered bs ds ∧ clamp chunk bs ds = .ok (List.zipWith min bs ds)) := by
  induction bs generalizing ds with
  | nil => exact .inr ⟨not_uncovered List.not_mem_nil ds, rfl⟩
  | cons b bs ih =>
    cases ds with
    | nil => exact .inr ⟨fun ⟨p, f, _, hd, _⟩ => (Option.some_ne_none f hd.symm).elim, rfl⟩
    | cons d ds =>
      rw [uncovered_cons, clamp]
      by_cases hb : b = 0 ∧ d ≠ 0
      · rw [if_pos hb]
        exact .inl ⟨.inl hb, rfl⟩
      · rw [if_neg hb, or_iff_right hb]
        rcases ih ds with ⟨hu, hrest⟩ | ⟨hu, hrest⟩
        · exact .inl ⟨hu, by rw [hrest]; rfl⟩
        · exact .inr ⟨hu, by rw [hrest]; rfl⟩

theorem zipWith_min_ne_zero {bs ds : List Nat} (hu : ¬ Uncovered bs ds) (h0 : 0 ∉ ds) :
    0 ∉ List.zipWith min bs ds := by
  intro h
  obtain ⟨p, hp⟩ := List.mem_iff_getElem?.mp h
  rw [List.getElem?_zipWith_eq_some] at hp
  obtain ⟨b, d, hb, hd, hmin⟩ := hp
  have hd0 : d ≠ 0 := fun h => h0 (h ▸ List.mem_of_getElem? hd)
  obtain rfl : b = 0 := by omega
  exact hu ⟨p, d, hb, hd, hd0⟩

theorem clamp_eq_ok {chunk bs ds base : List Nat} (h : clamp chunk bs ds = .ok base) :
    ¬ Uncovered bs ds ∧ base = List.zipWith min bs ds := by
  rcases clamp_cases chunk bs ds with ⟨-, hfail⟩ | ⟨hu, hok⟩
  · rw [hfail] at h
    cases h
  · exact ⟨hu, (Outcome.ok.inj (hok.symm.trans h)).symm⟩

theorem chunk_ne_zero {bs ds : List Nat} (hu : ¬ Uncovered bs ds) (hl : bs.length = ds.length) (h0 : 0 ∉ ds) :
    0 ∉ bs := by
  intro h
  obtain ⟨p, hp⟩ := List.mem_iff_getElem?.mp h
  obtain ⟨hlt, -⟩ := List.getElem?_eq_some_iff.mp hp
  have hd := List.getElem?_eq_getElem (hl ▸ hlt)
  exact hu ⟨p, _, hp, hd, fun hz => h0 (hz ▸ List.mem_of_getElem? hd)⟩

/-! ## Blocks without a zero extent -/

theorem satMul_ne_zero {a b : Nat} (ha : a ≠ 0) (hb : b ≠ 0) : Word.satMul a b ≠ 0 := by
  have := Nat.mul_pos (Nat.pos_of_ne_zero ha) (Nat.pos_of_ne_zero hb)
  unfold Word.satMul Word.last Word.bound
  omega

theorem foldl_satMul_ne_zero {xs : List Nat} {acc : Nat} (h0 : 0 ∉ xs) (ha : acc ≠ 0) :
    xs.foldl Word.satMul acc ≠ 0 := by
  induction xs generalizing acc with
  | nil => exact ha
  | cons x xs ih =>
    obtain ⟨hx, hxs⟩ := List.ne_and_not_mem_of_not_mem_cons h0
    rw [List.foldl_cons]
    exact ih hxs (satMul_ne_zero ha (Ne.symm hx))

theorem grow_ne_zero {budget size : Nat} {bs ds : List Nat} {r : List Nat × Nat × Bool}
    (h : grow budget size bs ds = .ok r) (hb0 : 0 ∉ bs) (hd0 : 0 ∉ ds) : 0 ∉ r.1 := by
  induction bs generalizing ds r with
  | nil =>
    obtain rfl := Outcome.ok.inj h
    simp
  | cons b bs ih =>
    cases ds with
    | nil =>
      obtain rfl := Outcome.ok.inj h
      simp
    | cons d ds =>
      obtain ⟨hb, hbs⟩ := List.ne_and_not_mem_of_not_mem_cons hb0
      obtain ⟨hd, hds⟩ := List.ne_and_not_mem_of_not_mem_cons hd0
      unfold grow at h
      obtain ⟨⟨bs', size', ended⟩, hrest, h⟩ := Outcome.bind_eq_ok.mp h
      have hrest0 : 0 ∉ bs' := ih hrest hbs hds
      have hkeep : 0 ∉ b :: bs' := by
        simp only [List.mem_cons, not_or]
        exact ⟨hb, hrest0⟩
      dsimp only at h
      split at h
      · obtain rfl := Outcome.ok.inj h
        exact hkeep
      · obtain ⟨multiple, _, h⟩ := Outcome.bind_eq_ok.mp h
        split at h
        · obtain rfl := Outcome.ok.inj h
          exact hkeep
        · obtain ⟨quotient, _, h⟩ := Outcome.bind_eq_ok.mp h
          obtain ⟨grown, _, h⟩ := Outcome.bind_eq_ok.mp h
          obtain rfl := Outcome.ok.inj h
          have hsat : Word.satMul b multiple ≠ 0 := satMul_ne_zero (Ne.symm hb) (by omega)
          simp only [List.mem_cons, not_or]
          exact ⟨by omega, hrest0⟩

theorem block_ne_zero {chunk : Option (List Nat)} {full block : List Nat} {budget : Nat}
    (h : Plan.block chunk full budget = .ok block) (h0 : 0 ∉ full) : 0 ∉ block := by
  unfold Plan.block at h
  obtain ⟨chunk', _, h⟩ := Outcome.bind_eq_ok.mp h
  obtain ⟨base, hbase, h⟩ := Outcome.bind_eq_ok.mp h
  obtain ⟨hu, rfl⟩ := clamp_eq_ok hbase
  have hb := zipWith_min_ne_zero hu h0
  dsimp only at h
  split at h
  · rename_i hz
    exact absurd hz (foldl_satMul_ne_zero hb Nat.one_ne_zero)
  · obtain ⟨r, hgrow, h⟩ := Outcome.bind_eq_ok.mp h
    obtain rfl := Outcome.ok.inj h
    exact grow_ne_zero hgrow hb h0

/-! ## Every budget has a plan -/

theorem foldl_satMul_zero (xs : List Nat) : xs.foldl Word.satMul 0 = 0 := by
  induction xs with
  | nil => rfl
  | cons x xs ih => rw [List.foldl_cons, Word.satMul, Nat.zero_mul, Nat.zero_min, ih]

theorem foldl_satMul_eq_zero {xs : List Nat} {acc : Nat} (h : 0 ∈ xs) : xs.foldl Word.satMul acc = 0 := by
  induction xs generalizing acc with
  | nil => cases h
  | cons x xs ih =>
    rw [List.foldl_cons]
    rcases List.mem_cons.mp h with rfl | h
    · rw [Word.satMul, Nat.mul_zero, Nat.zero_min, foldl_satMul_zero]
    · exact ih h

theorem foldl_satMul_eq_min {xs : List Nat} {acc : Nat} (h0 : 0 ∉ xs) (ha : acc ≤ Word.last) :
    xs.foldl Word.satMul acc = min (acc * xs.prod) Word.last := by
  induction xs generalizing acc with
  | nil => rw [List.foldl_nil, List.prod_nil, Nat.mul_one, Nat.min_eq_left ha]
  | cons x xs ih =>
    obtain ⟨hx, hxs⟩ := List.ne_and_not_mem_of_not_mem_cons h0
    have hp : 0 < xs.prod := Nat.pos_of_ne_zero (List.prod_ne_zero hxs)
    rw [List.foldl_cons, Word.satMul, ih hxs (Nat.min_le_right _ _), List.prod_cons, ← Nat.mul_assoc]
    rcases Nat.le_total (acc * x) Word.last with h | h
    · rw [Nat.min_eq_left h]
    · -- what has reached the largest word stays there
      have hlast : Word.last ≤ Word.last * xs.prod := Nat.le_mul_of_pos_right _ hp
      have hprod : Word.last * xs.prod ≤ acc * x * xs.prod := Nat.mul_le_mul_right _ h
      rw [Nat.min_eq_right h, Nat.min_eq_right hlast, Nat.min_eq_right (Nat.le_trans hlast hprod)]

theorem mul_scaled_lt {budget : Nat} (hbudget : budget < 2 ^ 64) (rest b grown d : Nat) :
    rest * grown * min d (Word.satMul b (budget / (rest * b * grown))) < 2 ^ 64 := by
  have hscaled : min d (Word.satMul b (budget / (rest * b * grown))) ≤ b * (budget / (rest * b * grown)) := by
    rw [Word.satMul]
    omega
  calc rest * grown * min d (Word.satMul b (budget / (rest * b * grown)))
      ≤ rest * grown * (b * (budget / (rest * b * grown))) := Nat.mul_le_mul_left _ hscaled
    _ = budget / (rest * b * grown) * (rest * b * grown) := by ring
    _ ≤ budget := Nat.div_mul_le_self _ _
    _ < 2 ^ 64 := hbudget

/-- How a block may come out of a base: an extent grows by whole base extents and up to that of the array, and only
where all faster ones have reached theirs. -/
inductive Grown : List Nat → List Nat → List Nat → Prop
  | nil : Grown [] [] []
  | kept {b d : Nat} {base full block : List Nat} (rest : Grown base full block) :
      Grown (b :: base) (d :: full) (b :: block)
  | scaled {b d : Nat} {base full : List Nat} (multiple : Nat) (len : base.length = full.length) :
      Grown (b :: base) (d :: full) (min d (b * multiple) :: full)

theorem Grown.length_eq {base full block : List Nat} (h : Grown base full block) :
    base.length = full.length ∧ block.length = full.length := by
  induction h with
  | nil => exact ⟨rfl, rfl⟩
  | kept _ ih => simp [ih.1, ih.2]
  | scaled _ len => simp [len]

/-- How a block comes out of a base within a budget, where `rest` is the product of the slower extents. An extent grows
if all faster ones have reached those of the array and the budget has room for two blocks, by as many base extents as
there is room for blocks. -/
inductive Greedy (budget : Nat) : Nat → List Nat → List Nat → List Nat → Prop
  | nil (rest : Nat) : Greedy budget rest [] [] []
  | kept {rest b d : Nat} {base full block : List Nat} (faster : Greedy budget (rest * b) base full block)
      (room : budget / (rest * b * block.prod) ≤ 1) : Greedy budget rest (b :: base) (d :: full) (b :: block)
  | scaled {rest b d : Nat} {base full : List Nat} (len : base.length = full.length)
      (room : 1 < budget / (rest * b * full.prod)) :
      Greedy budget rest (b :: base) (d :: full) (min d (b * (budget / (rest * b * full.prod))) :: full)

theorem Greedy.grown {budget rest : Nat} {base full block : List Nat} (h : Greedy budget rest base full block) :
    Grown base full block := by
  induction h with
  | nil rest => exact .nil
  | kept _ _ ih => exact .kept ih
  | scaled len _ => exact .scaled _ len

theorem div_mul_scaled_le {budget size multiple : Nat} (hm : multiple = budget / size) :
    budget / (size * multiple) ≤ 1 := by
  rw [← Nat.div_div_eq_div_mul, ← hm]
  rcases Nat.eq_zero_or_pos multiple with h | h
  · simp [h]
  · rw [Nat.div_self h]

/-- `rest` is the product of the slower extents of the block, which do not grow yet. They may grow only if the faster
ones are full: else growth has ended, or the budget has no room. -/
theorem grow_eq_ok {budget : Nat} (hbudget : budget < 2 ^ 64) {bs ds : List Nat} (rest : Nat)
    (hl : bs.length = ds.length) (hb0 : 0 ∉ bs) (hd0 : 0 ∉ ds) (hw : ∀ d ∈ ds, d < 2 ^ 64) (hr : rest ≠ 0) :
    ∃ grown ended, grow budget (rest * bs.prod) bs ds = .ok (grown, rest * grown.prod, ended) ∧
      Greedy budget rest bs ds grown ∧ 0 ∉ grown ∧
      ((ended = false ∧ grown = ds) ∨ budget / (rest * grown.prod) ≤ 1) := by
  induction bs generalizing ds rest with
  | nil =>
    obtain rfl := List.eq_nil_of_length_eq_zero hl.symm
    exact ⟨[], false, rfl, .nil rest, List.not_mem_nil, .inl ⟨rfl, rfl⟩⟩
  | cons b bs ih =>
    obtain ⟨d, ds, rfl⟩ := List.exists_cons_of_length_eq_add_one hl.symm
    obtain ⟨hb, hbs⟩ := List.ne_and_not_mem_of_not_mem_cons hb0
    obtain ⟨hd, hds⟩ := List.ne_and_not_mem_of_not_mem_cons hd0
    rw [List.forall_mem_cons] at hw
    have hl : bs.length = ds.length := by simpa using hl
    obtain ⟨grown, ended, hg, hgreedy, hg0, hnext⟩ := ih (rest * b) hl hbs hds hw.2 (Nat.mul_ne_zero hr (Ne.symm hb))
    have hkeep : 0 ∉ b :: grown := by
      simp only [List.mem_cons, not_or]
      exact ⟨hb, hg0⟩
    have hsize : rest * b * grown.prod = rest * (b :: grown).prod := by
      rw [List.prod_cons, Nat.mul_assoc]
    have hpos : rest * b * grown.prod ≠ 0 :=
      Nat.mul_ne_zero (Nat.mul_ne_zero hr (Ne.symm hb)) (List.prod_ne_zero hg0)
    rw [List.prod_cons, ← Nat.mul_assoc, grow, hg, Outcome.ok_bind]
    dsimp only
    by_cases hm : budget / (rest * b * grown.prod) ≤ 1
    · refine ⟨b :: grown, true, ?_, .kept hgreedy hm, hkeep, .inr (hsize ▸ hm)⟩
      by_cases he : ended = true
      · rw [if_pos he, hsize]
        rfl
      · rw [if_neg he, Word.div_eq_ok hpos, Outcome.ok_bind, if_pos hm, hsize]
        rfl
    · obtain ⟨rfl, rfl⟩ := hnext.resolve_right hm
      rw [if_neg Bool.false_ne_true, Word.div_eq_ok hpos, Outcome.ok_bind, if_neg hm, Word.div_eq_ok (Ne.symm hb),
        Outcome.ok_bind]
      have hquot : rest * b * grown.prod / b = rest * grown.prod := by
        rw [Nat.mul_right_comm, Nat.mul_div_cancel _ (by omega)]
      have hscaled : Greedy budget rest (b :: bs) (d :: grown) _ := .scaled hl (Nat.lt_of_not_le hm)
      have hnew := mul_scaled_lt hbudget rest b grown.prod d
      obtain ⟨multiple, hmul⟩ : ∃ m, m = budget / (rest * b * grown.prod) := ⟨_, rfl⟩
      rw [← hmul] at hm hnew hscaled ⊢
      have hsat : min d (Word.satMul b multiple) = min d (b * multiple) := by
        have : d < 2 ^ 64 := hw.1
        unfold Word.satMul Word.last Word.bound
        omega
      have hs0 : b * multiple ≠ 0 := Nat.mul_ne_zero (Ne.symm hb) (by omega)
      rw [hsat] at hnew ⊢
      rw [hquot, Word.mul_eq_ok hnew, Outcome.ok_bind]
      have hprod : rest * (min d (b * multiple) :: grown).prod = rest * grown.prod * min d (b * multiple) := by
        rw [List.prod_cons, ← Nat.mul_assoc, Nat.mul_right_comm]
      refine ⟨min d (b * multiple) :: grown, false, by rw [hprod]; rfl, hscaled, ?_, ?_⟩
      · rw [List.mem_cons, not_or]
        exact ⟨by omega, hg0⟩
      · by_cases hfull : d ≤ b * multiple
        · rw [Nat.min_eq_left hfull]
          exact .inl ⟨rfl, rfl⟩
        · have hscaled : rest * grown.prod * (b * multiple) = rest * b * grown.prod * multiple := by ring
          rw [hprod, Nat.min_eq_right (Nat.le_of_not_le hfull), hscaled]
          exact .inr (div_mul_scaled_le hmul)

theorem grow_of_no_room {budget size : Nat} {bs ds : List Nat} (hl : bs.length = ds.length) (hs : size ≠ 0)
    (h : budget / size ≤ 1) : ∃ ended, grow budget size bs ds = .ok (bs, size, ended) := by
  induction bs generalizing ds with
  | nil =>
    obtain rfl := List.eq_nil_of_length_eq_zero hl.symm
    exact ⟨false, rfl⟩
  | cons b bs ih =>
    obtain ⟨d, ds, rfl⟩ := List.exists_cons_of_length_eq_add_one hl.symm
    obtain ⟨ended, hg⟩ := ih (show bs.length = ds.length by simpa using hl)
    refine ⟨true, ?_⟩
    rw [grow, hg, Outcome.ok_bind]
    dsimp only
    by_cases he : ended = true
    · rw [if_pos he]
      rfl
    · rw [if_neg he, Word.div_eq_ok hs, Outcome.ok_bind, if_pos h]
      rfl

theorem greedy_of_lt {budget rest : Nat} {base full : List Nat} (hl : base.length = full.length)
    (h : budget < rest * base.prod) : Greedy budget rest base full base := by
  induction base generalizing rest full with
  | nil =>
    obtain rfl := List.eq_nil_of_length_eq_zero hl.symm
    exact .nil rest
  | cons b base ih =>
    obtain ⟨d, full, rfl⟩ := List.exists_cons_of_length_eq_add_one hl.symm
    rw [List.prod_cons, ← Nat.mul_assoc] at h
    refine .kept (ih (by simpa using hl) h) ?_
    rw [Nat.div_eq_of_lt h]
    exact Nat.zero_le 1

/-- What a block consists of: chunks, or single elements where the array is not chunked. -/
def unit (chunk : Option (List Nat)) (full : List Nat) : List Nat := chunk.getD (List.replicate full.length 1)

def Chunked (chunk : Option (List Nat)) (full : List Nat) : Prop :=
  ∀ c, chunk = some c → c.length = full.length ∧ 0 ∉ c

theorem Chunked.unit {chunk : Option (List Nat)} {full : List Nat} (h : Chunked chunk full) :
    (unit chunk full).length = full.length ∧ 0 ∉ unit chunk full := by
  cases chunk with
  | none => exact ⟨by simp [Plan.unit], by simp [Plan.unit, List.mem_replicate]⟩
  | some c => exact h c rfl

theorem start_of_length {chunk : Option (List Nat)} {full : List Nat} (h : (unit chunk full).length = full.length) :
    start chunk full = .ok (unit chunk full) := by
  cases chunk with
  | none => rfl
  | some c => exact if_pos h

theorem mem_zipWith_min_zero {bs ds : List Nat} (hl : bs.length = ds.length) (h : 0 ∈ ds) :
    0 ∈ List.zipWith min bs ds := by
  induction bs generalizing ds with
  | nil =>
    obtain rfl := List.eq_nil_of_length_eq_zero hl.symm
    cases h
  | cons b bs ih =>
    obtain ⟨d, ds, rfl⟩ := List.exists_cons_of_length_eq_add_one hl.symm
    rw [List.zipWith_cons_cons, List.mem_cons]
    rcases List.mem_cons.mp h with rfl | h
    · exact Or.inl (Nat.min_zero b).symm
    · exact Or.inr (ih (by simpa using hl) h)

section
variable {chunk : Option (List Nat)} {full : List Nat} (budget : Nat)

theorem block_of_covered (hl : (unit chunk full).length = full.length) (hu : ¬ Uncovered (unit chunk full) full) :
    Plan.block chunk full budget =
      if (List.zipWith min (unit chunk full) full).foldl Word.satMul 1 = 0 then .ok (List.replicate full.length 0)
      else do
        let (grown, _, _) ← grow budget ((List.zipWith min (unit chunk full) full).foldl Word.satMul 1)
          (List.zipWith min (unit chunk full) full) full
        return grown := by
  have hclamp : clamp (chunk.getD []) (unit chunk full) full = .ok (List.zipWith min (unit chunk full) full) := by
    rcases clamp_cases (chunk.getD []) (unit chunk full) full with ⟨h, -⟩ | ⟨-, h⟩
    · exact absurd h hu
    · exact h
  rw [Plan.block, start_of_length hl, Outcome.ok_bind, hclamp, Outcome.ok_bind]
  rfl

theorem block_of_zero (hl : (unit chunk full).length = full.length) (hu : ¬ Uncovered (unit chunk full) full)
    (hz : 0 ∈ full) : Plan.block chunk full budget = .ok (List.replicate full.length 0) := by
  rw [block_of_covered budget hl hu, if_pos (foldl_satMul_eq_zero (mem_zipWith_min_zero hl hz))]

theorem block_of_pos (hl : (unit chunk full).length = full.length) (hu : ¬ Uncovered (unit chunk full) full)
    (hz : 0 ∉ full) (hw : ∀ d ∈ full, d < 2 ^ 64) (hbudget : budget < 2 ^ 64) :
    ∃ block, Plan.block chunk full budget = .ok block ∧
      Greedy budget 1 (List.zipWith min (unit chunk full) full) full block := by
  have hb0 : 0 ∉ List.zipWith min (unit chunk full) full := zipWith_min_ne_zero hu hz
  have hbl : (List.zipWith min (unit chunk full) full).length = full.length := by simp [hl]
  rw [block_of_covered budget hl hu, if_neg (foldl_satMul_ne_zero hb0 Nat.one_ne_zero),
    foldl_satMul_eq_min hb0 (by decide), Nat.one_mul]
  by_cases hp : (List.zipWith min (unit chunk full) full).prod < 2 ^ 64
  · obtain ⟨grown, ended, hg, hgreedy, -⟩ := grow_eq_ok hbudget 1 hbl hb0 hz hw Nat.one_ne_zero
    rw [Nat.one_mul] at hg
    have hword : (List.zipWith min (unit chunk full) full).prod ≤ Word.last := Nat.le_pred_of_lt hp
    rw [Nat.min_eq_left hword, hg]
    exact ⟨grown, rfl, hgreedy⟩
  · -- a base beyond the words counts as the largest word, which is beyond any budget for two blocks
    have hlast : budget / Word.last ≤ 1 :=
      Nat.lt_succ_iff.mp ((Nat.div_lt_iff_lt_mul (by decide)).mpr (Nat.lt_of_lt_of_le hbudget (by decide)))
    obtain ⟨ended, hg⟩ := grow_of_no_room hbl (show Word.last ≠ 0 by decide) hlast
    have hbeyond : Word.last ≤ (List.zipWith min (unit chunk full) full).prod :=
      Nat.le_trans (Nat.sub_le _ 1) (Nat.le_of_not_lt hp)
    rw [Nat.min_eq_right hbeyond, hg]
    exact ⟨_, rfl, greedy_of_lt hbl (by omega)⟩

end

/-- Every budget has a plan, and the block grows out of a chunk that is cut to the array. -/
theorem block_eq_ok {chunk : Option (List Nat)} {full : List Nat} {budget : Nat} (hc : Chunked chunk full)
    (hfull : full.prod < 2 ^ 64) (hbudget : budget < 2 ^ 64) :
    ∃ block, Plan.block chunk full budget = .ok block ∧ block.length = full.length ∧
      (0 ∉ full → Grown (List.zipWith min (unit chunk full) full) full block) := by
  obtain ⟨hl, h0⟩ := hc.unit
  have hu := not_uncovered h0 full
  by_cases hz : 0 ∈ full
  · exact ⟨_, block_of_zero budget hl hu hz, List.length_replicate, fun h => absurd hz h⟩
  · obtain ⟨block, hblock, hgreedy⟩ := block_of_pos budget hl hu hz (Shape.extent_lt hz hfull) hbudget
    exact ⟨block, hblock, hgreedy.grown.length_eq.2, fun _ => hgreedy.grown⟩

theorem chunked_of_block {chunk : Option (List Nat)} {full block : List Nat} {budget : Nat}
    (h : Plan.block chunk full budget = .ok block) (hf : 0 ∉ full) : Chunked chunk full := by
  rintro c rfl
  obtain ⟨c', hstart, h⟩ := Outcome.bind_eq_ok.mp h
  obtain ⟨base, hclamp, -⟩ := Outcome.bind_eq_ok.mp h
  unfold start at hstart
  dsimp only at hstart
  split at hstart
  · rename_i hl
    obtain rfl := Outcome.ok.inj hstart
    exact ⟨hl, chunk_ne_zero (clamp_eq_ok hclamp).1 hl hf⟩
  · cases hstart

end Ragged.Plan

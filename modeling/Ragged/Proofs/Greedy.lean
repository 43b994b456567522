import Mathlib.Algebra.Order.BigOperators.Group.List
import Ragged.Proofs.Plan

/-!
# Plans are greedy

A planned block holds as many elements as the budget has room for: it takes up the faster extents of the array, keeps
the chunk in the slower ones, and in between another chunk would be too much. Only a chunk that is itself beyond the
budget makes a larger block. Products of extents need not be words for this.
-/

namespace Ragged.Plan

theorem zipWith_min_le {bs ds : List Nat} (hl : bs.length = ds.length) :
    List.Forall₂ (· ≤ ·) (List.zipWith min bs ds) ds := by
  induction bs generalizing ds with
  | nil =>
    obtain rfl := List.eq_nil_of_length_eq_zero hl.symm
    exact .nil
  | cons b bs ih =>
    obtain ⟨d, ds, rfl⟩ := List.exists_cons_of_length_eq_add_one hl.symm
    exact .cons (Nat.min_le_right b d) (ih (by simpa using hl))

/-! ## Greedy blocks -/

section
variable {budget rest : Nat} {base full block : List Nat} (h : Greedy budget rest base full block)
include h

theorem Greedy.prod_le (hroom : rest * base.prod ≤ budget) : rest * block.prod ≤ budget := by
  induction h with
  | nil rest => exact hroom
  | kept _ _ ih =>
    rw [List.prod_cons, ← Nat.mul_assoc] at hroom ⊢
    exact ih hroom
  | @scaled rest b d base full _ _ =>
    rw [List.prod_cons]
    calc rest * (min d (b * (budget / (rest * b * full.prod))) * full.prod)
        ≤ rest * (b * (budget / (rest * b * full.prod)) * full.prod) :=
          Nat.mul_le_mul_left _ (Nat.mul_le_mul_right _ (Nat.min_le_right _ _))
      _ = budget / (rest * b * full.prod) * (rest * b * full.prod) := by ring
      _ ≤ budget := Nat.div_mul_le_self _ _

variable (hle : List.Forall₂ (· ≤ ·) base full)
include hle

theorem Greedy.eq_base (hroom : budget < rest * base.prod) : block = base := by
  induction h with
  | nil rest => rfl
  | kept _ _ ih =>
    obtain _ | ⟨_, hle⟩ := hle
    rw [List.prod_cons, ← Nat.mul_assoc] at hroom
    rw [ih hle hroom]
  | @scaled rest b d base full _ room =>
    obtain _ | ⟨_, hle⟩ := hle
    -- an extent grows only where the budget has room for two blocks, and the base is no larger than one
    have hone : 1 * (rest * b * full.prod) ≤ budget := Nat.mul_le_of_le_div _ _ _ (Nat.le_of_lt room)
    have hbase : rest * b * base.prod ≤ rest * b * full.prod := Nat.mul_le_mul_left _ hle.prod_le_prod'
    rw [List.prod_cons, ← Nat.mul_assoc] at hroom
    omega

theorem Greedy.extent {p b f x : Nat} (hb : base[p]? = some b) (hf : full[p]? = some f) (hx : block[p]? = some x) :
    b ≤ x ∧ x ≤ f ∧ (x = f ∨ b ∣ x) := by
  induction h generalizing p with
  | nil rest => cases hb
  | kept _ _ ih =>
    obtain _ | ⟨hd, hle⟩ := hle
    cases p with
    | zero =>
      obtain rfl := Option.some.inj hb
      obtain rfl := Option.some.inj hf
      obtain rfl := Option.some.inj hx
      exact ⟨Nat.le_refl _, hd, .inr (Nat.dvd_refl _)⟩
    | succ p => exact ih hle hb hf hx
  | @scaled rest b' d base full _ room =>
    obtain _ | ⟨hd, hle⟩ := hle
    cases p with
    | zero =>
      obtain rfl := Option.some.inj hb
      obtain rfl := Option.some.inj hf
      obtain rfl := Option.some.inj hx
      have hgrows : b' ≤ b' * (budget / (rest * b' * full.prod)) := Nat.le_mul_of_pos_right _ (by omega)
      refine ⟨Nat.le_min.mpr ⟨hd, hgrows⟩, Nat.min_le_left _ _, ?_⟩
      rcases Nat.le_total d (b' * (budget / (rest * b' * full.prod))) with hm | hm
      · exact .inl (Nat.min_eq_left hm)
      · rw [Nat.min_eq_right hm]
        exact .inr (Nat.dvd_mul_right _ _)
    | succ p =>
      obtain rfl : f = x := Option.some.inj (hf.symm.trans hx)
      have hb : base[p]? = some b := hb
      have hf : full[p]? = some f := hf
      obtain ⟨hlt, rfl⟩ := List.getElem?_eq_some_iff.mp hb
      obtain ⟨hlt', rfl⟩ := List.getElem?_eq_some_iff.mp hf
      exact ⟨hle.get hlt hlt', Nat.le_refl _, .inl rfl⟩

omit hle in
/-- Where the block is short of the array and all faster extents are full, the slower ones are those of the base, and
another base extent is beyond the budget. -/
theorem Greedy.maximal (hbase : rest * base.prod ≠ 0) (hfull : 0 ∉ full) {p b f x : Nat} (hb : base[p]? = some b)
    (hf : full[p]? = some f) (hx : block[p]? = some x) (hshort : x < f) (hfast : ∀ q, p < q → block[q]? = full[q]?) :
    (∀ q, q < p → block[q]? = base[q]?) ∧ budget < rest * (block.set p (x + b)).prod := by
  induction h generalizing p with
  | nil rest => cases hb
  | @kept rest b' d base full block faster room ih =>
    rw [List.prod_cons, ← Nat.mul_assoc] at hbase
    obtain ⟨-, hfull⟩ := List.ne_and_not_mem_of_not_mem_cons hfull
    cases p with
    | zero =>
      obtain rfl := Option.some.inj hb
      obtain rfl := Option.some.inj hx
      obtain rfl : block = full := List.ext_getElem? fun q => hfast (q + 1) (Nat.succ_pos q)
      have hpos : 0 < rest * b' * block.prod :=
        Nat.pos_of_ne_zero (Nat.mul_ne_zero (left_ne_zero_of_mul hbase) (List.prod_ne_zero hfull))
      have htwo : budget < 2 * (rest * b' * block.prod) := (Nat.div_lt_iff_lt_mul hpos).mp (Nat.lt_succ_of_le room)
      refine ⟨fun q hq => absurd hq (Nat.not_lt_zero q), ?_⟩
      rw [List.set_cons_zero, List.prod_cons]
      calc budget < 2 * (rest * b' * block.prod) := htwo
        _ = rest * ((b' + b') * block.prod) := by ring
    | succ p =>
      obtain ⟨hslow, hlt⟩ := ih hbase hfull hb hf hx fun q hq => hfast (q + 1) (Nat.succ_lt_succ hq)
      refine ⟨fun q hq => ?_, ?_⟩
      · cases q with
        | zero => rfl
        | succ q => exact hslow q (Nat.lt_of_succ_lt_succ hq)
      · rw [List.set_cons_succ, List.prod_cons, ← Nat.mul_assoc]
        exact hlt
  | @scaled rest b' d base full _ room =>
    rw [List.prod_cons, ← Nat.mul_assoc] at hbase
    obtain ⟨-, hfull⟩ := List.ne_and_not_mem_of_not_mem_cons hfull
    cases p with
    | zero =>
      obtain rfl := Option.some.inj hb
      obtain rfl := Option.some.inj hf
      obtain rfl := Option.some.inj hx
      have hpos : 0 < rest * b' * full.prod :=
        Nat.pos_of_ne_zero (Nat.mul_ne_zero (left_ne_zero_of_mul hbase) (List.prod_ne_zero hfull))
      refine ⟨fun q hq => absurd hq (Nat.not_lt_zero q), ?_⟩
      rw [List.set_cons_zero, List.prod_cons, Nat.min_eq_right (by omega)]
      calc budget < rest * b' * full.prod * (budget / (rest * b' * full.prod) + 1) := Nat.lt_mul_div_succ _ hpos
        _ = rest * ((b' * (budget / (rest * b' * full.prod)) + b') * full.prod) := by ring
    | succ p =>
      obtain rfl : f = x := Option.some.inj (hf.symm.trans hx)
      exact absurd hshort (Nat.lt_irrefl f)

end

/-! ## What a plan owes -/

/-- A block of an array with elements: it covers a chunk that is cut to the array, and is made of whole chunks or reaches
the end of the array. It is within the budget if the chunk is, and the fastest extent that could grow would leave the
budget with one more chunk, while no slower one has grown. -/
structure Fills (budget : Nat) (chunk full block : List Nat) : Prop where
  length : block.length = full.length
  extent : ∀ {p c f x : Nat}, chunk[p]? = some c → full[p]? = some f → block[p]? = some x →
    min c f ≤ x ∧ x ≤ f ∧ (x = f ∨ c ∣ x)
  beyond : budget < (List.zipWith min chunk full).prod → block = List.zipWith min chunk full
  within : (List.zipWith min chunk full).prod ≤ budget → block.prod ≤ budget
  maximal : ∀ {p c f x : Nat}, chunk[p]? = some c → full[p]? = some f → block[p]? = some x → x < f →
    (∀ q, p < q → block[q]? = full[q]?) →
    (∀ q, q < p → block[q]? = (List.zipWith min chunk full)[q]?) ∧ budget < (block.set p (x + c)).prod

theorem Greedy.fills {budget : Nat} {chunk full block : List Nat} (hl : chunk.length = full.length)
    (hu : ¬ Uncovered chunk full) (hf0 : 0 ∉ full) (h : Greedy budget 1 (List.zipWith min chunk full) full block) :
    Fills budget chunk full block := by
  have hle := zipWith_min_le hl
  have hbase : ∀ {p c f : Nat}, chunk[p]? = some c → full[p]? = some f →
      (List.zipWith min chunk full)[p]? = some (min c f) := by
    intro p c f hc hf
    exact List.getElem?_zipWith_eq_some.mpr ⟨c, f, hc, hf, rfl⟩
  refine ⟨h.grown.length_eq.2, ?_, fun hlt => h.eq_base hle (by rwa [Nat.one_mul]), fun hroom => ?_, ?_⟩
  · intro p c f x hc hf hx
    obtain ⟨hmin, hxf, hwhole⟩ := h.extent hle (hbase hc hf) hf hx
    refine ⟨hmin, hxf, ?_⟩
    rcases Nat.le_total c f with hcf | hcf
    · rwa [Nat.min_eq_left hcf] at hwhole
    · rw [Nat.min_eq_right hcf] at hmin
      exact .inl (Nat.le_antisymm hxf hmin)
  · have := h.prod_le (by rwa [Nat.one_mul])
    rwa [Nat.one_mul] at this
  · intro p c f x hc hf hx hshort hfast
    obtain ⟨hmin, -, -⟩ := h.extent hle (hbase hc hf) hf hx
    have hpos : 1 * (List.zipWith min chunk full).prod ≠ 0 :=
      Nat.mul_ne_zero Nat.one_ne_zero (List.prod_ne_zero (zipWith_min_ne_zero hu hf0))
    have hmax := h.maximal hpos hf0 (hbase hc hf) hf hx hshort hfast
    -- a chunk that was cut to the array would have reached its end
    rwa [Nat.min_eq_left (by omega), Nat.one_mul] at hmax

/-! ## The plan -/

theorem block_of_rank {chunk : Option (List Nat)} {full : List Nat} (budget : Nat)
    (h : (unit chunk full).length ≠ full.length) : Plan.block chunk full budget =
      .fail (.shapeMismatch s!"chunk rank {full.length}" s!"chunk rank {(unit chunk full).length}") := by
  cases chunk with
  | none => exact absurd List.length_replicate h
  | some c =>
    have hstart : start (some c) full =
        .fail (.shapeMismatch s!"chunk rank {full.length}" s!"chunk rank {c.length}") := if_neg h
    rw [Plan.block, hstart, Outcome.fail_bind]
    rfl

theorem block_of_uncovered {chunk : Option (List Nat)} {full : List Nat} (budget : Nat)
    (hl : (unit chunk full).length = full.length) (hu : Uncovered (unit chunk full) full) :
    Plan.block chunk full budget =
      .fail (.invalidArgument s!"chunk shape {Text.extents (unit chunk full)} has a zero extent") := by
  cases chunk with
  | none => exact absurd hu (not_uncovered (by simp [unit, List.mem_replicate]) full)
  | some c =>
    have hclamp : clamp c c full = .fail (.invalidArgument s!"chunk shape {Text.extents c} has a zero extent") := by
      rcases clamp_cases c c full with ⟨-, h⟩ | ⟨h, -⟩
      · exact h
      · exact absurd hu h
    rw [Plan.block, start_of_length hl, Outcome.ok_bind]
    exact congrArg (· >>= _) hclamp

/-- Planning fails if the chunk has another rank than the array, or else if a chunk extent is zero where that of the
array is not, and for no other reason: no sum, product or quotient on the way leaves the words, though products of
extents may. What it plans is nothing for an array without elements, and else the block that a chunk fills the budget
with. -/
theorem block_fills_budget (chunk : Option (List Nat)) {full : List Nat} (hw : ∀ d ∈ full, d < 2 ^ 64) {budget : Nat}
    (hb : budget < 2 ^ 64) :
    ((∃ expected actual, Plan.block chunk full budget = .fail (.shapeMismatch expected actual)) ↔
      (unit chunk full).length ≠ full.length) ∧
    ((∃ reason, Plan.block chunk full budget = .fail (.invalidArgument reason)) ↔
      (unit chunk full).length = full.length ∧ Uncovered (unit chunk full) full) ∧
    ((∃ block, Plan.block chunk full budget = .ok block) ↔
      (unit chunk full).length = full.length ∧ ¬ Uncovered (unit chunk full) full) ∧
    ∀ block, Plan.block chunk full budget = .ok block →
      (0 ∈ full → block = List.replicate full.length 0) ∧
      (0 ∉ full → Fills budget (unit chunk full) full block) := by
  by_cases hl : (unit chunk full).length = full.length
  · by_cases hu : Uncovered (unit chunk full) full
    · rw [block_of_uncovered budget hl hu]
      simp [hl, hu]
    · by_cases hz : 0 ∈ full
      · rw [block_of_zero budget hl hu hz]
        simp [hl, hu, hz]
      · obtain ⟨block, hblock, hgreedy⟩ := block_of_pos budget hl hu hz hw hb
        have hfills := hgreedy.fills hl hu hz
        rw [hblock]
        simp [hl, hu, hz, hfills]
  · rw [block_of_rank budget hl]
    simp [hl]

theorem block_fills_budget_in_part :
    Plan.block (some [4, 1048576, 3]) [10, 1099511627776, 1099511627776] 1073741824 = .ok [4, 1048576, 255] ∧
    2 ^ 64 ≤ [10, 1099511627776, 1099511627776].prod ∧
    Fills 1073741824 [4, 1048576, 3] [10, 1099511627776, 1099511627776] [4, 1048576, 255] ∧
    1073741824 < ([4, 1048576, 255].set 2 (255 + 3)).prod := by
  have hblock : Plan.block (some [4, 1048576, 3]) [10, 1099511627776, 1099511627776] 1073741824 =
      .ok [4, 1048576, 255] := by decide
  have hfills : Fills 1073741824 [4, 1048576, 3] [10, 1099511627776, 1099511627776] [4, 1048576, 255] :=
    ((block_fills_budget (some [4, 1048576, 3]) (by decide) (by decide)).2.2.2 _ hblock).2 (by decide)
  refine ⟨hblock, by decide, hfills, (hfills.maximal rfl rfl rfl (by decide) ?_).2⟩
  intro q hq
  rw [List.getElem?_eq_none (by exact hq), List.getElem?_eq_none (by exact hq)]

end Ragged.Plan

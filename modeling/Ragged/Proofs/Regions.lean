import Mathlib.Algebra.Order.BigOperators.Group.List
import Mathlib.Data.List.GetD
import Ragged.Proofs.Atomic
import Ragged.Proofs.Bijection

/-!
# Regions of a shape

A shape multiplies its extents from the last one on and a slab its counts from the first one on, and both refuse a
product on the way that is no word. Without a zero among the extents the two refuse the same. A zero hides the products
of the slower extents from the shape, but not from the slab, so there are shapes of which not even the whole is accepted
as a slab of starts and counts.
-/

namespace Ragged

/-- Starts and counts of the rank of a shape that end nowhere beyond its extents. -/
def Shape.Region (s : Shape) (starts counts : List Nat) : Prop :=
  starts.length = s.rank ∧ counts.length = s.rank ∧
    ∀ i, i < s.rank → starts.getD i 0 + counts.getD i 0 ≤ s.dims.getD i 0

instance (s : Shape) (starts counts : List Nat) : Decidable (s.Region starts counts) :=
  inferInstanceAs (Decidable (starts.length = s.rank ∧ counts.length = s.rank ∧
    ∀ i, i < s.rank → starts.getD i 0 + counts.getD i 0 ≤ s.dims.getD i 0))

theorem prod_take_lt {xs : List Nat} (h0 : 0 ∉ xs) (h : xs.prod < 2 ^ 64) (i : Nat) : (xs.take i).prod < 2 ^ 64 := by
  have hle := Nat.le_of_dvd (Nat.pos_of_ne_zero (List.prod_ne_zero h0)) (List.take_sublist i xs).prod_dvd_prod
  omega

namespace Slab

theorem Inside.counts_le {starts counts dims : List Nat} (h : Inside starts counts dims) :
    List.Forall₂ (· ≤ ·) counts dims := by
  induction h with
  | nil => exact .nil
  | cons _ hb _ ih => exact .cons (Nat.le_of_add_left_le hb) ih

section
variable {dims : List Nat} (hw : ∀ d ∈ dims, d < 2 ^ 64)
include hw

theorem inside_of_region {starts counts : List Nat} (h : (Shape.rowMajor dims).Region starts counts) :
    Inside starts counts dims := by
  obtain ⟨hs, hc, hends⟩ := h
  exact (inside_iff (hs.trans hc.symm) hw).mpr ⟨hs, hends⟩

omit hw in
theorem region_whole (dims : List Nat) : (Shape.rowMajor dims).Region (List.replicate dims.length 0) dims := by
  refine ⟨List.length_replicate, rfl, fun i hi => ?_⟩
  have hi : i < dims.length := hi
  rw [List.getD_replicate 0 hi, Nat.zero_add]
  exact Nat.le_refl _

theorem prod_take_counts_le {starts counts : List Nat} (h : (Shape.rowMajor dims).Region starts counts) (i : Nat) :
    (counts.take i).prod ≤ (dims.take i).prod :=
  (List.forall₂_take i (inside_of_region hw h).counts_le).prod_le_prod'

theorem prod_counts_le {starts counts : List Nat} (h : (Shape.rowMajor dims).Region starts counts) :
    counts.prod ≤ dims.prod :=
  (inside_of_region hw h).counts_le.prod_le_prod'

/-- What is accepted of a region is a slab of all its elements that lies in the shape, and what is refused has none. -/
theorem region_cases (hp : dims.prod < 2 ^ 64) {starts counts : List Nat}
    (h : (Shape.rowMajor dims).Region starts counts) :
    ((∀ i, (counts.take i).prod < 2 ^ 64) ∧ ofCounts starts counts = .ok ⟨starts, counts, counts.prod⟩ ∧
        checkWithin ⟨starts, counts, counts.prod⟩ (Shape.rowMajor dims) = .ok ()) ∨
      (¬ (∀ i, (counts.take i).prod < 2 ^ 64) ∧ 0 ∈ counts ∧ ofCounts starts counts =
        .fail (.invalidArgument s!"slab counts {Text.extents counts} overflow a u64")) := by
  have hin := inside_of_region hw h
  rcases ofCounts_cases hin.length_eq.1 with ⟨hwords, hok⟩ | ⟨hwords, hfail⟩
  · exact .inl ⟨hwords, hok, (checkWithin_eq_ok hin.length_eq.1).mpr hin⟩
  · refine .inr ⟨hwords, ?_, hfail⟩
    by_contra h0
    exact hwords (prod_take_lt h0 (Nat.lt_of_le_of_lt (prod_counts_le hw h) hp))

theorem exists_ofCounts_iff (hp : dims.prod < 2 ^ 64) {starts counts : List Nat}
    (h : (Shape.rowMajor dims).Region starts counts) :
    (∃ slab, ofCounts starts counts = .ok slab) ↔ ∀ i, (counts.take i).prod < 2 ^ 64 := by
  rcases region_cases hw hp h with ⟨hwords, hok, -⟩ | ⟨hwords, -, hfail⟩
  · exact iff_of_true ⟨_, hok⟩ hwords
  · rw [hfail]
    exact iff_of_false (fun ⟨_, hok⟩ => nomatch hok) hwords

end

/-- A region of an accepted shape is accepted as a slab if and only if the products of its first counts are words. Then
its size is the exact product, and it passes the check. Regions with elements are always accepted. All regions of a shape
are accepted if and only if the whole of it is, which is so if the products of its first extents are words, as they
are where no extent is zero. -/
theorem regions_accepted {dims : List Nat} {s : Shape} (hs : Shape.ofDims dims = .ok s) (hw : ∀ d ∈ dims, d < 2 ^ 64) :
    (∀ starts counts, s.Region starts counts →
      ((∃ slab, ofCounts starts counts = .ok slab) ↔ ∀ i, (counts.take i).prod < 2 ^ 64) ∧
      (∀ slab, ofCounts starts counts = .ok slab →
        slab = ⟨starts, counts, counts.prod⟩ ∧ slab.checkWithin s = .ok ()) ∧
      ((¬ ∃ slab, ofCounts starts counts = .ok slab) → 0 ∈ counts ∧ ofCounts starts counts =
        .fail (.invalidArgument s!"slab counts {Text.extents counts} overflow a u64"))) ∧
    ((∀ starts counts, s.Region starts counts → ∃ slab, ofCounts starts counts = .ok slab) ↔
      ∀ i, (dims.take i).prod < 2 ^ 64) ∧
    (ofCounts (List.replicate s.rank 0) s.dims = .ok (whole s) ↔ ∀ i, (dims.take i).prod < 2 ^ 64) ∧
    (whole s).checkWithin s = .ok () ∧
    (0 ∉ dims → ∀ i, (dims.take i).prod < 2 ^ 64) := by
  obtain ⟨rfl, hp⟩ := Shape.ofDims_eq_ok hs
  have hwhole := region_whole dims
  have hin := inside_of_region hw hwhole
  refine ⟨fun starts counts h => ⟨exists_ofCounts_iff hw hp h, ?_⟩, ?_, ?_, (checkWithin_eq_ok hin.length_eq.1).mpr hin,
    fun h0 => prod_take_lt h0 hp⟩
  · rcases region_cases hw hp h with ⟨-, hok, hcheck⟩ | ⟨-, h0, hfail⟩
    · refine ⟨fun slab hslab => ?_, fun hnone => absurd ⟨_, hok⟩ hnone⟩
      obtain rfl := Outcome.ok.inj (hok.symm.trans hslab)
      exact ⟨rfl, hcheck⟩
    · refine ⟨fun slab hslab => ?_, fun _ => ⟨h0, hfail⟩⟩
      rw [hfail] at hslab
      cases hslab
  · constructor
    · intro hall
      exact (exists_ofCounts_iff hw hp hwhole).mp (hall _ _ hwhole)
    · intro hdims starts counts h
      exact (exists_ofCounts_iff hw hp h).mpr fun i => Nat.lt_of_le_of_lt (prod_take_counts_le hw h i) (hdims i)
  · rcases region_cases hw hp hwhole with ⟨hwords, hok, -⟩ | ⟨hwords, -, hfail⟩
    · exact iff_of_true hok hwords
    · rw [Shape.rowMajor_rank, Shape.rowMajor_dims, hfail]
      exact iff_of_false nofun hwords

theorem regions_accepted_near_the_bound :
    let s := Shape.rowMajor [4294967296, 4294967295]
    let t := Shape.rowMajor [3, 0, 9223372036854775807]
    Shape.ofDims [4294967296, 4294967295] = .ok s ∧ s.Region [0, 4294967294] [4294967296, 1] ∧
      (∃ slab, ofCounts [0, 4294967294] [4294967296, 1] = .ok slab ∧ slab.size = 4294967296 ∧
        slab.checkWithin s = .ok ()) ∧
      Shape.ofDims [3, 0, 9223372036854775807] = .ok t ∧
      ofCounts [0, 0, 0] [3, 0, 9223372036854775807] = .ok (whole t) := by
  intro s t
  have hs : Shape.ofDims [4294967296, 4294967295] = .ok s := by decide
  have ht : Shape.ofDims [3, 0, 9223372036854775807] = .ok t := by decide
  have hregion : s.Region [0, 4294967294] [4294967296, 1] := by decide
  obtain ⟨hregions, -, -, -, hpos⟩ := regions_accepted hs (by decide)
  obtain ⟨haccepted, hslab, hrefused⟩ := hregions _ _ hregion
  have hex : ∃ slab, ofCounts [0, 4294967294] [4294967296, 1] = .ok slab := by
    by_contra hnone
    exact absurd (hrefused hnone).1 (by decide)
  obtain ⟨slab, hok⟩ := hex
  obtain ⟨rfl, hcheck⟩ := hslab slab hok
  refine ⟨hs, hregion, ⟨_, hok, rfl, hcheck⟩, ht, (regions_accepted ht (by decide)).2.2.1.mpr fun i => ?_⟩
  match i with
  | 0 | 1 => decide
  | i + 2 => simp

theorem region_refused :
    let s := Shape.rowMajor [9223372036854775808, 2, 0]
    Shape.ofDims [9223372036854775808, 2, 0] = .ok s ∧ s.Region [0, 0, 0] [9223372036854775808, 2, 0] ∧
      (whole s).checkWithin s = .ok () ∧ (whole s).size = 0 ∧
      (¬ ∃ slab, ofCounts [0, 0, 0] [9223372036854775808, 2, 0] = .ok slab) ∧
      ofCounts [0, 0, 0] [9223372036854775808, 2, 0] ≠ .ok (whole s) := by
  intro s
  obtain ⟨e, hfail⟩ : ∃ e, ofCounts [0, 0, 0] [9223372036854775808, 2, 0] = .fail e := ⟨_, rfl⟩
  refine ⟨by decide, by decide, by decide, by decide, ?_, ?_⟩
  · rintro ⟨slab, hok⟩
    rw [hfail] at hok
    cases hok
  · rw [hfail]
    nofun

end Slab

end Ragged

import Ragged.Proofs.Slab
import Ragged.Slab.Indices

/-!
# Flat indices of a slab

The indices of a slab are the numbers of its coordinates, in their order. A step of the odometer adds a stride
before it takes away what the carry is worth, so it may pass beyond the slab; inside a shape the sums are words,
because some slower position still has room when a faster one carries.
-/

namespace Ragged.Indices

open Odometer

/-- Whether the sums of a step are words, from the number `base` of the element at the origin. -/
def Fits (base : Nat) : List Nat → List Nat → List Nat → Prop
  | p :: ps, _ :: cs, s :: ss =>
    Fits (base + s * p) ps cs ss ∧ ((succ cs ps).2 = true → base + s * p + s < 2 ^ 64)
  | _, _, _ => True

theorem turn_eq_ok {ps cs ss : List Nat} {base : Nat} (h : List.Forall₂ (· < ·) ps cs)
    (hl : ss.length = cs.length) (hw : ∀ c ∈ cs, c < 2 ^ 64) (hfits : Fits base ps cs ss) :
    turn (base + dot ss ps) ps cs ss =
      .ok ((succ cs ps).1, base + dot ss (succ cs ps).1, (succ cs ps).2) := by
  induction h generalizing ss base with
  | nil =>
    obtain rfl := List.eq_nil_of_length_eq_zero hl
    rfl
  | @cons p c ps cs hp hps ih =>
    obtain ⟨s, ss, rfl⟩ := List.exists_cons_of_length_eq_add_one hl
    obtain ⟨hf, hs⟩ := hfits
    rw [List.forall_mem_cons] at hw
    have ih := ih (by simpa using hl) hw.2 hf
    have hc : c < 2 ^ 64 := hw.1
    rw [dot_cons, ← Nat.add_assoc, turn, ih, Outcome.ok_bind]
    by_cases hcar : (succ cs ps).2 = true
    · have hsum := hs hcar
      have ho := succ_carried hps.length_eq hcar
      have hmul : s * (p + 1) = s * p + s := Nat.mul_succ s p
      simp only [hcar, if_true, succ, ho, dot_origin, Nat.add_zero]
      rw [Word.add_eq_ok (show p + 1 < 2 ^ 64 by omega), Outcome.ok_bind, Word.add_eq_ok hsum,
        Outcome.ok_bind]
      by_cases hn : p + 1 < c
      · simp [hn, dot_origin, hmul, Nat.add_assoc]
      · obtain rfl : c = p + 1 := by omega
        rw [if_neg hn, if_neg hn, Word.mul_eq_ok (by omega), Outcome.ok_bind, Word.sub_eq_ok (by omega),
          Outcome.ok_bind, hmul, Nat.add_assoc base, Nat.add_sub_cancel]
        simp [dot_origin]
    · simp [hcar, succ, Nat.add_assoc]

/-! ## What is left -/

/-- An iterator that has still to give these indices: it stands on the first of them, or there are none. -/
inductive Left (base : Nat) (strides counts : List Nat) : Indices → List Nat → Prop
  | ended {it : Indices} (h : it.remaining = 0) : Left base strides counts it []
  | stands {ps : List Nat} (h : List.Forall₂ (· < ·) ps counts) :
      Left base strides counts ⟨strides, counts, ps, base + dot strides ps, (after counts ps).length + 1⟩
        ((ps :: after counts ps).map (base + dot strides ·))

section
variable {counts strides : List Nat} {base : Nat}

theorem Left.remaining {it : Indices} {indices : List Nat} (h : Left base strides counts it indices) :
    it.remaining = indices.length := by
  cases h with
  | ended h => exact h
  | stands h => simp

variable (hl : strides.length = counts.length) (hw : ∀ c ∈ counts, c < 2 ^ 64)
  (hf : ∀ ps, List.Forall₂ (· < ·) ps counts → (succ counts ps).2 = false → Fits base ps counts strides)

include hl hw hf in
theorem Left.next {it : Indices} {indices : List Nat} (h : Left base strides counts it indices) :
    ∃ it', it.next = .ok (indices.head?, it') ∧ Left base strides counts it' indices.tail := by
  cases h with
  | ended h => exact ⟨it, by simp [Indices.next, h], .ended h⟩
  | @stands ps hps =>
    have ha := after_succ hps
    by_cases hcar : (succ counts ps).2 = true
    · rw [if_pos hcar] at ha
      rw [ha]
      exact ⟨_, rfl, .ended rfl⟩
    · have hcar' : (succ counts ps).2 = false := by simpa using hcar
      have ht := turn_eq_ok hps hl hw (hf ps hps hcar')
      rw [if_neg hcar] at ha
      rw [ha]
      refine ⟨_, ?_, .stands (succ_lt hps)⟩
      simp only [List.length_cons, Indices.next, Indices.step, ht, Outcome.ok_bind, Outcome.pure_eq, List.map_cons,
        List.head?_cons]

include hl hw hf in
theorem Left.take (n : Nat) {it : Indices} {indices : List Nat} (h : Left base strides counts it indices) :
    ∃ last, it.take n = .ok (indices.take n, last) := by
  induction n generalizing it indices with
  | zero => exact ⟨it, rfl⟩
  | succ n ih =>
    obtain ⟨it', hnext, h'⟩ := h.next hl hw hf
    rw [Indices.take, hnext, Outcome.ok_bind]
    cases indices with
    | nil => exact ⟨it', rfl⟩
    | cons i indices =>
      obtain ⟨last, hrest⟩ := ih h'
      exact ⟨last, by simp only [List.head?_cons, hrest, Outcome.ok_bind, Outcome.pure_eq, List.tail_cons,
        List.take_succ_cons]⟩

include hl hw hf in
theorem Left.toList {it : Indices} {indices : List Nat} (h : Left base strides counts it indices) :
    it.toList = .ok indices := by
  obtain ⟨last, htake⟩ := h.take hl hw hf it.remaining
  rw [Indices.toList, htake, h.remaining, List.take_length]
  rfl

end

theorem startIndex_cases (strides starts : List Nat) :
    (dot strides starts < 2 ^ 64 ∧ Slab.startIndex strides starts = .ok (dot strides starts)) ∨
      (¬ dot strides starts < 2 ^ 64 ∧ Slab.startIndex strides starts = .trap) := by
  rw [Slab.startIndex, Word.dot_eq]
  by_cases h : dot strides starts < 2 ^ 64
  · exact .inl ⟨h, if_pos h⟩
  · exact .inr ⟨h, if_neg h⟩

theorem ofSlab_cases {strides : List Nat} {slab : Slab} (hl : strides.length = slab.rank) :
    (dot strides slab.starts < 2 ^ 64 ∧ ofSlab strides slab =
        .ok ⟨strides, slab.counts, List.replicate slab.rank 0, dot strides slab.starts, slab.size⟩) ∨
      (¬ dot strides slab.starts < 2 ^ 64 ∧ ofSlab strides slab = .trap) := by
  rw [ofSlab, if_pos hl]
  rcases startIndex_cases strides slab.starts with ⟨hstart, h⟩ | ⟨hstart, h⟩
  · exact .inl ⟨hstart, by rw [h]; rfl⟩
  · exact .inr ⟨hstart, by rw [h]; rfl⟩

theorem ofSlab_left {strides : List Nat} {slab : Slab} (hs : slab.Sized) (hl : strides.length = slab.rank)
    (hstart : dot strides slab.starts < 2 ^ 64) :
    ∃ it, ofSlab strides slab = .ok it ∧
      Left (dot strides slab.starts) strides slab.counts it (slab.cells.map (dot strides)) := by
  have hit := ((ofSlab_cases hl).resolve_right fun h => h.1 hstart).2
  rw [Slab.rank, hs.rank] at hit
  refine ⟨_, hit, ?_⟩
  unfold Slab.cells
  by_cases hz : slab.size = 0
  · rw [if_pos hz]
    exact .ended hz
  · have hprod := hs.size.resolve_right hz
    have h0 := hs.counts_ne_zero hz
    have hgrid := grid_eq h0
    have horigin : List.Forall₂ (· < ·) (origin slab.counts) slab.counts := by
      rw [← mem_grid, hgrid]
      exact List.mem_cons_self
    have hsize : slab.size = (after slab.counts (origin slab.counts)).length + 1 := by
      rw [hprod, ← length_grid, hgrid, List.length_cons]
    have hcells : slab.coords.map (dot strides) =
        (origin slab.counts :: after slab.counts (origin slab.counts)).map
          (dot strides slab.starts + dot strides ·) := by
      rw [← hgrid, Slab.coords, Slab.coordsOf_eq hs.rank, List.map_map]
      apply List.map_congr_left
      intro ps hps
      rw [Function.comp_apply, dot_add _ _ _ (by rw [hs.rank, (mem_grid.mp hps).length_eq])]
    have hstands := @Left.stands (dot strides slab.starts) strides _ _ horigin
    rw [dot_origin, Nat.add_zero] at hstands
    rw [if_neg hz, hcells, hsize]
    exact hstands

/-! ## Inside a shape -/

open Slab (Inside)

theorem length_strides {slab : Slab} {dims : List Nat} (h : Inside slab.starts slab.counts dims) :
    (Shape.stridesOf dims).length = slab.rank := by
  rw [Shape.length_stridesOf, Slab.rank, h.length_eq.2]

theorem starts_lt {starts counts dims : List Nat} (h : Inside starts counts dims) (h0 : 0 ∉ counts) :
    List.Forall₂ (· < ·) starts dims := by
  induction h with
  | nil => exact .nil
  | cons _ hb _ ih =>
    obtain ⟨hc, hcs⟩ := List.ne_and_not_mem_of_not_mem_cons h0
    exact .cons (by omega) (ih hcs)

/-- `lead` is what the slower positions add. A step that carries out of all these positions needs room for one
more row of the slower position. -/
theorem fits_of_inside {starts counts dims ps : List Nat} {lead : Nat} (h : Inside starts counts dims)
    (hps : List.Forall₂ (· < ·) ps counts) (hroom : lead + dims.prod ≤ 2 ^ 64)
    (hcar : (succ counts ps).2 = true → lead + 2 * dims.prod ≤ 2 ^ 64) :
    Fits (lead + dot (Shape.stridesOf dims) starts) ps counts (Shape.stridesOf dims) := by
  induction h generalizing ps lead with
  | nil =>
    cases hps
    trivial
  | @cons start count extent starts counts dims hw hb h ih =>
    obtain _ | ⟨hp, hps⟩ := hps
    rename_i p ps
    have h0 := ne_zero_of_lt hps
    have hlt := Shape.dot_lt_prod (starts_lt h h0)
    have hbase : lead + dot (Shape.stridesOf (extent :: dims)) (start :: starts) + dims.prod * p =
        lead + dims.prod * (start + p) + dot (Shape.stridesOf dims) starts := by
      simp only [Shape.stridesOf, dot_cons]
      ring
    have hrow : dims.prod * (start + p + 1) ≤ extent * dims.prod := by
      rw [Nat.mul_comm extent]
      exact Nat.mul_le_mul_left _ (by omega)
    have hrow' : dims.prod * (start + p + 1) = dims.prod * (start + p) + dims.prod := Nat.mul_succ _ _
    simp only [List.prod_cons] at hroom hcar
    -- one more row of this position is free, or else the slower positions have room for it
    have htwo : (succ counts ps).2 = true → lead + dims.prod * (start + p) + 2 * dims.prod ≤ 2 ^ 64 := by
      intro hc
      by_cases hn : p + 1 < count
      · have hrow₂ : dims.prod * (start + p + 2) ≤ extent * dims.prod := by
          rw [Nat.mul_comm extent]
          exact Nat.mul_le_mul_left _ (by omega)
        have hrow₂' : dims.prod * (start + p + 2) = dims.prod * (start + p) + 2 * dims.prod := by ring
        omega
      · have hall := hcar (by simp [succ, hc, hn])
        have hone : dims.prod ≤ extent * dims.prod := Nat.le_mul_of_pos_left _ (by omega)
        omega
    constructor
    · rw [hbase]
      exact ih hps (by omega) htwo
    · intro hc
      have := htwo hc
      rw [hbase]
      omega

theorem count_lt {starts counts dims : List Nat} (h : Inside starts counts dims) : ∀ c ∈ counts, c < 2 ^ 64 := by
  induction h with
  | nil => simp
  | cons hw _ _ ih =>
    intro c hc
    rcases List.mem_cons.mp hc with rfl | hc
    · omega
    · exact ih c hc

theorem fits_inside {dims : List Nat} {slab : Slab} (hd : dims.prod < 2 ^ 64)
    (hin : Inside slab.starts slab.counts dims) (ps : List Nat) (hps : List.Forall₂ (· < ·) ps slab.counts)
    (hcar : (succ slab.counts ps).2 = false) :
    Fits (dot (Shape.stridesOf dims) slab.starts) ps slab.counts (Shape.stridesOf dims) := by
  have := fits_of_inside hin hps (show 0 + dims.prod ≤ 2 ^ 64 by omega) (fun h => by rw [hcar] at h; cases h)
  rwa [Nat.zero_add] at this

theorem toList_ofSlab {dims : List Nat} {slab : Slab} (hd : dims.prod < 2 ^ 64)
    (hin : Inside slab.starts slab.counts dims) (h0 : 0 ∉ slab.counts) (hs : slab.size = slab.counts.prod) :
    (do (← ofSlab (Shape.stridesOf dims) slab).toList) =
      .ok (slab.coords.map (dot (Shape.stridesOf dims))) := by
  have hlt := Shape.dot_lt_prod (starts_lt hin h0)
  have hcells : slab.cells = slab.coords := if_neg (hs ▸ List.prod_ne_zero h0)
  obtain ⟨it, hit, hleft⟩ := ofSlab_left ⟨hin.length_eq.1, .inl hs⟩ (length_strides hin) (by omega)
  rw [hit, Outcome.ok_bind, ← hcells]
  exact hleft.toList ((length_strides hin).trans hin.length_eq.1) (count_lt hin) (fits_inside hd hin)

end Ragged.Indices

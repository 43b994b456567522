import Mathlib.Data.List.Forall2
import Mathlib.Algebra.BigOperators.Ring.List
import Mathlib.Algebra.Ring.Nat

/-!
# Odometers

Walks over boxes go through positions below counts, the last position varying fastest. `grid` lists all positions,
`succ` moves to the next one as a walk does, and `after` lists what a walk has still to visit. The steps from a
position visit exactly what comes after it, in strictly increasing lexicographic order.
-/

namespace Ragged.Odometer

/-- All positions below the counts. -/
def grid : List Nat → List (List Nat)
  | [] => [[]]
  | c :: cs => (List.range c).flatMap fun p => (grid cs).map (p :: ·)

/-- The positions after one step, and whether the slowest of them carried. -/
def succ : List Nat → List Nat → List Nat × Bool
  | c :: cs, p :: ps =>
    let (ps, carried) := succ cs ps
    if carried then if p + 1 < c then ((p + 1) :: ps, false) else (0 :: ps, true)
    else (p :: ps, false)
  | _, _ => ([], true)

def after : List Nat → List Nat → List (List Nat)
  | c :: cs, p :: ps =>
    (after cs ps).map (p :: ·) ++
      (List.range' (p + 1) (c - (p + 1))).flatMap fun q => (grid cs).map (q :: ·)
  | _, _ => []

def origin (cs : List Nat) : List Nat := List.replicate cs.length 0

@[simp] theorem origin_nil : origin [] = [] := rfl
@[simp] theorem origin_cons (c : Nat) (cs : List Nat) : origin (c :: cs) = 0 :: origin cs := rfl

/-! ## All positions -/

theorem mem_grid {cs ps : List Nat} : ps ∈ grid cs ↔ List.Forall₂ (· < ·) ps cs := by
  induction cs generalizing ps with
  | nil => simp [grid]
  | cons c cs ih =>
    simp only [grid, List.mem_flatMap, List.mem_range, List.mem_map, List.forall₂_cons_right_iff]
    constructor
    · rintro ⟨p, hp, qs, hq, rfl⟩; exact ⟨p, qs, hp, ih.mp hq, rfl⟩
    · rintro ⟨p, qs, hp, hq, rfl⟩; exact ⟨p, hp, qs, ih.mpr hq, rfl⟩

theorem length_grid (cs : List Nat) : (grid cs).length = cs.prod := by
  induction cs with
  | nil => rfl
  | cons c cs ih =>
    simp only [grid, List.length_flatMap, List.length_map, ih, List.map_const', List.length_range,
      List.sum_replicate_nat, List.prod_cons]

theorem rows_sorted {l : List Nat} {rows : List (List Nat)} (hl : l.Pairwise (· < ·))
    (hr : rows.Pairwise (· < ·)) : (l.flatMap fun p => rows.map (p :: ·)).Pairwise (· < ·) := by
  rw [List.pairwise_flatMap]
  constructor
  · intro p _
    apply List.Pairwise.map _ _ hr
    intro a b hab
    exact List.cons_lt_cons_iff.mpr (Or.inr ⟨rfl, hab⟩)
  · apply hl.imp
    intro p q hpq x hx y hy
    obtain ⟨a, _, rfl⟩ := List.mem_map.mp hx
    obtain ⟨b, _, rfl⟩ := List.mem_map.mp hy
    exact List.cons_lt_cons_iff.mpr (Or.inl hpq)

theorem grid_sorted (cs : List Nat) : (grid cs).Pairwise (· < ·) := by
  induction cs with
  | nil => exact List.pairwise_singleton _ _
  | cons c cs ih => exact rows_sorted List.pairwise_lt_range ih

theorem nodup_of_sorted {l : List (List Nat)} (h : l.Pairwise (· < ·)) : l.Nodup := by
  apply h.imp
  rintro a _ hlt rfl
  exact List.lt_irrefl _ hlt

theorem grid_nodup (cs : List Nat) : (grid cs).Nodup := nodup_of_sorted (grid_sorted cs)

theorem grid_eq_nil {cs : List Nat} (h : 0 ∈ cs) : grid cs = [] := by
  rw [← List.length_eq_zero_iff, length_grid]
  exact List.prod_eq_zero h

/-! ## Steps -/

theorem grid_eq {cs : List Nat} (h : 0 ∉ cs) : grid cs = origin cs :: after cs (origin cs) := by
  induction cs with
  | nil => rfl
  | cons c cs ih =>
    obtain ⟨hc, hcs⟩ := List.ne_and_not_mem_of_not_mem_cons h
    obtain ⟨n, rfl⟩ : ∃ n, c = n + 1 := ⟨c - 1, by omega⟩
    simp only [grid, origin_cons, after, List.range_eq_range', List.range'_succ, List.flatMap_cons]
    rw [ih hcs]
    simp

theorem ne_zero_of_lt {cs ps : List Nat} (h : List.Forall₂ (· < ·) ps cs) : 0 ∉ cs := by
  induction h with
  | nil => simp
  | cons hp _ ih =>
    rw [List.mem_cons, not_or]
    exact ⟨by omega, ih⟩

theorem succ_carried {cs ps : List Nat} (hl : ps.length = cs.length) (h : (succ cs ps).2 = true) :
    (succ cs ps).1 = origin cs := by
  induction cs generalizing ps with
  | nil => rfl
  | cons c cs ih =>
    obtain ⟨p, ps, rfl⟩ := List.exists_cons_of_length_eq_add_one hl
    simp only [succ] at h ⊢
    by_cases hc : (succ cs ps).2 = true
    · by_cases hp : p + 1 < c
      · simp [hc, hp] at h
      · simp [hc, hp, ih (by simpa using hl) hc]
    · simp [hc] at h

theorem succ_lt {cs ps : List Nat} (h : List.Forall₂ (· < ·) ps cs) : List.Forall₂ (· < ·) (succ cs ps).1 cs := by
  induction h with
  | nil => exact .nil
  | @cons p c ps cs hp _ ih =>
    simp only [succ]
    by_cases hc : (succ cs ps).2 = true
    · by_cases hn : p + 1 < c
      · simp [hc, hn, ih]
      · simp [hc, hn, ih, show 0 < c by omega]
    · simp [hc, hp, ih]

theorem after_succ {cs ps : List Nat} (h : List.Forall₂ (· < ·) ps cs) :
    after cs ps = if (succ cs ps).2 then [] else (succ cs ps).1 :: after cs (succ cs ps).1 := by
  induction h with
  | nil => rfl
  | @cons p c ps cs hp hps ih =>
    have hz := ne_zero_of_lt hps
    by_cases hc : (succ cs ps).2 = true
    · have ho := succ_carried hps.length_eq hc
      rw [if_pos hc] at ih
      by_cases hn : p + 1 < c
      · obtain ⟨k, hk⟩ : ∃ k, c - (p + 1) = k + 1 := ⟨c - (p + 1) - 1, by omega⟩
        have hk' : c - (p + 1 + 1) = k := by omega
        simp only [succ, after, hc, hn, if_true, ih, ho, hk, hk', List.range'_succ, List.flatMap_cons,
          List.map_nil, List.nil_append, Bool.false_eq_true, if_false]
        rw [grid_eq hz]
        simp
      · have hk : c - (p + 1) = 0 := by omega
        simp [succ, after, hc, hn, ih, hk]
    · rw [if_neg hc] at ih
      simp only [succ, after, hc, if_false, ih, List.map_cons, List.cons_append, Bool.false_eq_true]

end Ragged.Odometer

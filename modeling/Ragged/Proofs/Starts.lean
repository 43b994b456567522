import Mathlib.Algebra.Order.BigOperators.Group.List
import Ragged.Proofs.Bijection
import Ragged.Proofs.Codec

/-!
# Starts of checked slabs

The check of a slab bounds the ends, and a slab without elements may start where the extents end, in every dimension.
Each product of a stride and a start is a word even then. Their sum is the number of an element for a slab with elements,
but for one without elements it can leave the words, and then neither the indices of the slab nor its pointers are
given.
-/

namespace Ragged

/-! ## Sums of products -/

theorem dot_le_dot (xs : List Nat) {ys zs : List Nat} (h : List.Forall₂ (· ≤ ·) ys zs) : dot xs ys ≤ dot xs zs := by
  induction h generalizing xs with
  | nil => exact Nat.le_refl _
  | cons hle _ ih =>
    cases xs with
    | nil => exact Nat.le_refl _
    | cons x xs =>
      rw [dot_cons, dot_cons]
      exact Nat.add_le_add (Nat.mul_le_mul_left x hle) (ih xs)

theorem dot_lt_iff (xs ys : List Nat) :
    dot xs ys < 2 ^ 64 ↔ ∀ i, ((List.zipWith (· * ·) xs ys).take i).sum < 2 ^ 64 := by
  constructor
  · intro h i
    have hsum := List.sum_take_add_sum_drop (List.zipWith (· * ·) xs ys) i
    rw [dot] at h
    omega
  · intro h
    have hall := h (List.zipWith (· * ·) xs ys).length
    rwa [List.take_length] at hall

/-! ## Starts of a slab that lies in a shape -/

namespace Slab

theorem Inside.starts_le {starts counts dims : List Nat} (h : Inside starts counts dims) :
    List.Forall₂ (· ≤ ·) starts dims := by
  induction h with
  | nil => exact .nil
  | cons _ hb _ ih => exact .cons (Nat.le_of_add_right_le hb) ih

/-- The slab without elements at the end of a shape, which has the largest starts of all. -/
def atEnd (dims : List Nat) : Slab := ⟨dims, List.replicate dims.length 0, (List.replicate dims.length 0).prod⟩

theorem atEnd_sized (dims : List Nat) : (atEnd dims).Sized := ⟨List.length_replicate.symm, .inl rfl⟩

theorem inside_atEnd {dims : List Nat} (hw : ∀ d ∈ dims, d < 2 ^ 64) :
    Inside dims (List.replicate dims.length 0) dims := by
  induction dims with
  | nil => exact .nil
  | cons d dims ih =>
    rw [List.forall_mem_cons] at hw
    exact .cons hw.1 (Nat.le_refl d) (ih hw.2)

theorem Inside.products_lt {starts counts dims : List Nat} (h : Inside starts counts dims)
    (hd : ∀ i, (dims.drop i).prod < 2 ^ 64) :
    ∀ x ∈ List.zipWith (· * ·) (Shape.stridesOf dims) starts, x < 2 ^ 64 := by
  induction h with
  | nil => nofun
  | @cons start count extent starts counts dims _ hb _ ih =>
    have hle : dims.prod * start ≤ dims.prod * extent := Nat.mul_le_mul_left _ (Nat.le_of_add_right_le hb)
    have hpart : (extent :: dims).prod < 2 ^ 64 := hd 0
    rw [List.prod_cons, Nat.mul_comm] at hpart
    rw [Shape.stridesOf, List.zipWith_cons_cons, List.forall_mem_cons]
    exact ⟨Nat.lt_of_le_of_lt hle hpart, ih fun i => hd (i + 1)⟩

end Slab

theorem Action.forEach_ne_trap {σ β : Type} {f : β → Action σ Unit} (h : ∀ b st, (f b st).1 ≠ .trap) (bs : List β)
    (st : σ) : (Action.forEach f bs st).1 ≠ .trap := by
  induction bs generalizing st with
  | nil =>
    intro htrap
    cases htrap
  | cons b bs ih =>
    have hb := h b st
    rw [Action.forEach, Action.bind_apply]
    rcases hf : f b st with ⟨x, st'⟩
    rw [hf] at hb
    cases x with
    | ok u => exact ih st'
    | fail e =>
      intro htrap
      cases htrap
    | trap => exact absurd rfl hb

namespace Codec

section
variable {dims : List Nat} {slab : Slab} (hs : slab.Sized)
include hs

theorem flatIndices_cases (hc : slab.checkWithin (Shape.rowMajor dims) = .ok ()) :
    (dot (Shape.stridesOf dims) slab.starts < 2 ^ 64 ∧ flatIndices (Shape.rowMajor dims) slab =
        .ok ⟨Shape.stridesOf dims, slab.counts, List.replicate slab.rank 0, dot (Shape.stridesOf dims) slab.starts,
          slab.size⟩) ∨
      (¬ dot (Shape.stridesOf dims) slab.starts < 2 ^ 64 ∧ flatIndices (Shape.rowMajor dims) slab = .trap) := by
  have hin := (Slab.checkWithin_eq_ok hs.rank).mp hc
  rw [flatIndices, hc, Outcome.ok_bind, Shape.rowMajor_strides]
  exact Indices.ofSlab_cases (Indices.length_strides hin)

theorem decodeSlab_ne_trap (hd : dims.prod < 2 ^ 64) {it : Indices}
    (hit : flatIndices (Shape.rowMajor dims) slab = .ok it) {σ : Type} (ps : List Pointer)
    {visit : Nat → Pointer → Action σ Unit} (hvisit : ∀ flat p st, (visit flat p st).1 ≠ .trap) (st : σ) :
    (decodeSlab (Shape.rowMajor dims) slab ps visit st).1 ≠ .trap := by
  obtain ⟨is, -, hlist⟩ := flatIndices_gives hd hs hit
  rw [decodeSlab, pairs, hit, Outcome.ok_bind, hlist]
  by_cases hcount : it.remaining = ps.length
  · rw [Outcome.require, if_pos hcount]
    apply Action.forEach_ne_trap
    rintro ⟨flat, p⟩
    exact hvisit flat p
  · rw [Outcome.require, if_neg hcount]
    intro htrap
    cases htrap

omit hs in
theorem decodeSlab_of_trap {s : Shape} (h : flatIndices s slab = .trap) {σ : Type} (ps : List Pointer)
    (visit : Nat → Pointer → Action σ Unit) (st : σ) : decodeSlab s slab ps visit st = (.trap, st) := by
  rw [decodeSlab, pairs, h]
  rfl

end

/-- The products on the way to the number of the start of a checked slab are words. For a slab with elements that number
is the number of an element. In general, if it is a word then it is computed without leaving the words, the indices
start at it, and decoding traps only if a visit does. If it is none, the slab has no elements, and its indices and
its pointers trap. This happens to no checked slab of a shape if and only if the number of the end of the shape is a
word. -/
theorem start_of_checked {dims : List Nat} {s : Shape} (hs : Shape.ofDims dims = .ok s) (hw : ∀ d ∈ dims, d < 2 ^ 64) :
    (∀ slab : Slab, slab.Sized → slab.checkWithin s = .ok () →
      (∀ x ∈ List.zipWith (· * ·) s.strides slab.starts, x < 2 ^ 64) ∧
      (slab.size ≠ 0 → dot s.strides slab.starts < s.size) ∧
      (dot s.strides slab.starts < 2 ^ 64 →
        (∀ i, ((List.zipWith (· * ·) s.strides slab.starts).take i).sum < 2 ^ 64) ∧
        Slab.startIndex s.strides slab.starts = .ok (dot s.strides slab.starts) ∧
        flatIndices s slab = .ok ⟨s.strides, slab.counts, List.replicate slab.rank 0, dot s.strides slab.starts,
          slab.size⟩ ∧
        ∀ {σ : Type} (ps : List Pointer) (visit : Nat → Pointer → Action σ Unit),
          (∀ flat p st, (visit flat p st).1 ≠ .trap) → ∀ st, (decodeSlab s slab ps visit st).1 ≠ .trap) ∧
      (¬ dot s.strides slab.starts < 2 ^ 64 →
        slab.size = 0 ∧ Slab.startIndex s.strides slab.starts = .trap ∧ flatIndices s slab = .trap ∧
        ∀ {σ : Type} (ps : List Pointer) (visit : Nat → Pointer → Action σ Unit) (st : σ),
          decodeSlab s slab ps visit st = (.trap, st))) ∧
    ((∀ slab : Slab, slab.Sized → slab.checkWithin s = .ok () → dot s.strides slab.starts < 2 ^ 64) ↔
      dot s.strides s.dims < 2 ^ 64) := by
  have hparts := (Shape.ofDims_cases dims).resolve_right fun ⟨_, e, he⟩ => by rw [he] at hs; cases hs
  obtain ⟨rfl, hp⟩ := Shape.ofDims_eq_ok hs
  refine ⟨fun slab hsized hc => ?_, ?_⟩
  · have hin : Slab.Inside slab.starts slab.counts dims := (Slab.checkWithin_eq_ok hsized.rank).mp hc
    have hnumber : slab.size ≠ 0 → dot (Shape.stridesOf dims) slab.starts < dims.prod :=
      fun hz => Shape.dot_lt_prod (Indices.starts_lt hin (hsized.counts_ne_zero hz))
    have hstart := Indices.startIndex_cases (Shape.stridesOf dims) slab.starts
    refine ⟨hin.products_lt hparts.1, hnumber, fun hword => ?_, fun hword => ?_⟩
    · have hit := ((flatIndices_cases hsized hc).resolve_right fun h => h.1 hword).2
      exact ⟨(dot_lt_iff _ _).mp hword, (hstart.resolve_right fun h => h.1 hword).2, hit,
        fun ps _ hvisit st => decodeSlab_ne_trap hsized hp hit ps hvisit st⟩
    · have hit := ((flatIndices_cases hsized hc).resolve_left fun h => hword h.1).2
      refine ⟨?_, (hstart.resolve_left fun h => hword h.1).2, hit, decodeSlab_of_trap hit⟩
      by_contra hz
      exact hword (Nat.lt_trans (hnumber hz) hp)
  · constructor
    · intro h
      exact h (Slab.atEnd dims) (Slab.atEnd_sized dims)
        ((Slab.checkWithin_eq_ok (Slab.atEnd_sized dims).rank).mpr (Slab.inside_atEnd hw))
    · intro h slab hsized hc
      have hin := (Slab.checkWithin_eq_ok hsized.rank).mp hc
      exact Nat.lt_of_le_of_lt (dot_le_dot _ hin.starts_le) h

theorem start_of_checked_near_the_bound :
    let s := Shape.rowMajor [4294967296, 4294967295]
    let corner : Slab := ⟨[4294967295, 4294967294], [1, 1], 1⟩
    let beyond : Slab := ⟨[4294967296, 4294967295], [0, 0], 0⟩
    Shape.ofDims [4294967296, 4294967295] = .ok s ∧ corner.checkWithin s = .ok () ∧ beyond.checkWithin s = .ok () ∧
      dot s.strides corner.starts < s.size ∧ Slab.startIndex s.strides beyond.starts = .ok 18446744073709551615 ∧
      (∃ it, flatIndices s beyond = .ok it) ∧
      ∀ slab : Slab, slab.Sized → slab.checkWithin s = .ok () → dot s.strides slab.starts < 2 ^ 64 := by
  intro s corner beyond
  have hs : Shape.ofDims [4294967296, 4294967295] = .ok s := by decide
  have hcorner : corner.checkWithin s = .ok () := by decide
  have hbeyond : beyond.checkWithin s = .ok () := by decide
  obtain ⟨hstarts, hall⟩ := start_of_checked hs (by decide)
  obtain ⟨-, hnumber, -⟩ := hstarts corner ⟨rfl, .inl rfl⟩ hcorner
  obtain ⟨-, hstart, hit, -⟩ := (hstarts beyond ⟨rfl, .inl rfl⟩ hbeyond).2.2.1 (by decide)
  exact ⟨hs, hcorner, hbeyond, hnumber (by decide), hstart, ⟨_, hit⟩, hall.mpr (by decide)⟩

theorem start_is_no_word :
    let s := Shape.rowMajor [0, 3, 4611686018427387904]
    let slab : Slab := ⟨[0, 3, 4611686018427387904], [0, 0, 0], 0⟩
    Shape.ofDims [0, 3, 4611686018427387904] = .ok s ∧
      Slab.ofCounts [0, 3, 4611686018427387904] [0, 0, 0] = .ok slab ∧ slab.checkWithin s = .ok () ∧
      dot s.strides slab.starts = 2 ^ 64 ∧ Slab.startIndex s.strides slab.starts = .trap ∧
      flatIndices s slab = .trap ∧ encodeSlab s slab [] [] = .trap ∧
      ∀ {σ : Type} (visit : Nat → Pointer → Action σ Unit) (st : σ), decodeSlab s slab [] visit st = (.trap, st) := by
  intro s slab
  have hit : flatIndices s slab = .trap := by decide
  exact ⟨by decide, by decide, by decide, by decide, by decide, hit, by decide, decodeSlab_of_trap hit []⟩

end Codec

end Ragged

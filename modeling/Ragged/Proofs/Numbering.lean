import Mathlib.Tactic.Ring
import Mathlib.Algebra.BigOperators.Group.List.Lemmas
import Mathlib.Algebra.Order.Ring.Nat
import Ragged.Proofs.Odometer
import Ragged.Slab.Basic

/-!
# Numbering the elements of a shape

A shape that was accepted has the products of the faster extents as strides, and numbers its elements by the sums
of products of strides and coordinates. Over all coordinates in lexicographic order these numbers are `0, 1, 2, …`.
-/

namespace Ragged

def dot (xs ys : List Nat) : Nat := (List.zipWith (· * ·) xs ys).sum

@[simp] theorem dot_nil (ys : List Nat) : dot [] ys = 0 := rfl

@[simp] theorem dot_cons (x y : Nat) (xs ys : List Nat) : dot (x :: xs) (y :: ys) = x * y + dot xs ys := rfl

theorem dot_origin (xs cs : List Nat) : dot xs (Odometer.origin cs) = 0 := by
  induction cs generalizing xs with
  | nil => cases xs <;> rfl
  | cons c cs ih =>
    cases xs with
    | nil => rfl
    | cons x xs => simp [ih]

theorem dot_add (xs ys zs : List Nat) (h : ys.length = zs.length) :
    dot xs (List.zipWith (· + ·) ys zs) = dot xs ys + dot xs zs := by
  induction xs generalizing ys zs with
  | nil => rfl
  | cons x xs ih =>
    cases ys with
    | nil => obtain rfl := List.eq_nil_of_length_eq_zero h.symm; rfl
    | cons y ys =>
      obtain ⟨z, zs, rfl⟩ := List.exists_cons_of_length_eq_add_one h.symm
      simp only [List.zipWith_cons_cons, dot_cons, ih ys zs (by simpa using h)]
      ring

/-! ## Words -/

namespace Word

theorem add_eq_ok {a b : Nat} (h : a + b < 2 ^ 64) : add a b = .ok (a + b) := if_pos h

theorem add_eq_trap {a b : Nat} (h : ¬ a + b < 2 ^ 64) : add a b = .trap := if_neg h

theorem add?_eq_some {a b : Nat} (h : a + b < 2 ^ 64) : add? a b = some (a + b) := if_pos h

theorem add?_eq_none {a b : Nat} (h : ¬ a + b < 2 ^ 64) : add? a b = none := if_neg h

theorem mul?_eq_some {a b : Nat} (h : a * b < 2 ^ 64) : mul? a b = some (a * b) := if_pos h

theorem mul?_eq_none {a b : Nat} (h : ¬ a * b < 2 ^ 64) : mul? a b = none := if_neg h

theorem sub_eq_ok {a b : Nat} (h : b ≤ a) : sub a b = .ok (a - b) := if_pos h

theorem mul_eq_ok {a b : Nat} (h : a * b < 2 ^ 64) : mul a b = .ok (a * b) := if_pos h

theorem mul_eq_trap {a b : Nat} (h : ¬ a * b < 2 ^ 64) : mul a b = .trap := if_neg h

theorem div_eq_ok {a b : Nat} (h : b ≠ 0) : div a b = .ok (a / b) := if_neg h

theorem mod_eq_ok {a b : Nat} (h : b ≠ 0) : mod a b = .ok (a % b) := if_neg h

theorem ceilDiv_eq_ok {a b : Nat} (h : b ≠ 0) : ceilDiv a b = .ok ((a + b - 1) / b) := if_neg h

theorem foldlM_dot (xs ys : List Nat) {acc : Nat} (h : acc < 2 ^ 64) :
    (xs.zip ys).foldlM (fun acc (x, y) => do add acc (← mul x y)) acc =
      if acc + Ragged.dot xs ys < 2 ^ 64 then .ok (acc + Ragged.dot xs ys) else .trap := by
  induction xs generalizing ys acc with
  | nil => exact (if_pos h).symm
  | cons x xs ih =>
    cases ys with
    | nil => exact (if_pos h).symm
    | cons y ys =>
      simp only [List.zip_cons_cons, List.foldlM_cons, dot_cons, ← Nat.add_assoc]
      by_cases hsum : acc + x * y < 2 ^ 64
      · rw [mul_eq_ok (by omega), Outcome.ok_bind, add_eq_ok hsum, Outcome.ok_bind, ih ys hsum]
      · rw [if_neg (by omega)]
        by_cases hmul : x * y < 2 ^ 64
        · rw [mul_eq_ok hmul, Outcome.ok_bind, add_eq_trap hsum, Outcome.trap_bind]
        · rw [mul_eq_trap hmul, Outcome.trap_bind, Outcome.trap_bind]

theorem dot_eq (xs ys : List Nat) :
    dot xs ys = if Ragged.dot xs ys < 2 ^ 64 then .ok (Ragged.dot xs ys) else .trap := by
  have := foldlM_dot xs ys (show 0 < 2 ^ 64 by omega)
  rwa [Nat.zero_add] at this

theorem foldlM_mul (xs : List Nat) (acc : Nat) (h0 : 0 ∉ xs) (h : acc * xs.prod < 2 ^ 64) :
    xs.foldlM mul acc = .ok (acc * xs.prod) := by
  induction xs generalizing acc with
  | nil => simp
  | cons x xs ih =>
    obtain ⟨hx, hxs⟩ := List.ne_and_not_mem_of_not_mem_cons h0
    rw [List.prod_cons, ← Nat.mul_assoc] at h ⊢
    have hp : 0 < xs.prod := Nat.pos_of_ne_zero (List.prod_ne_zero hxs)
    have hle : acc * x ≤ acc * x * xs.prod := Nat.le_mul_of_pos_right _ hp
    rw [List.foldlM_cons, mul_eq_ok (by omega), Outcome.ok_bind, ih _ hxs h]

/-- The products of first parts decide: a product that is no word is refused, also where a zero follows. -/
theorem foldlM_mul?_cases (xs : List Nat) {acc : Nat} (ha : acc < 2 ^ 64) :
    ((∀ i, acc * (xs.take i).prod < 2 ^ 64) ∧ xs.foldlM mul? acc = some (acc * xs.prod)) ∨
      (¬ (∀ i, acc * (xs.take i).prod < 2 ^ 64) ∧ xs.foldlM mul? acc = none) := by
  induction xs generalizing acc with
  | nil => exact .inl ⟨fun i => by rwa [List.take_nil, List.prod_nil, Nat.mul_one], by simp⟩
  | cons x xs ih =>
    rw [List.foldlM_cons]
    by_cases hx : acc * x < 2 ^ 64
    · have hstep : (∀ i, acc * ((x :: xs).take i).prod < 2 ^ 64) ↔ ∀ i, acc * x * (xs.take i).prod < 2 ^ 64 := by
        constructor
        · intro h i
          rw [Nat.mul_assoc, ← List.prod_cons, ← List.take_succ_cons]
          exact h (i + 1)
        · intro h i
          cases i with
          | zero => rwa [List.take_zero, List.prod_nil, Nat.mul_one]
          | succ i =>
            rw [List.take_succ_cons, List.prod_cons, ← Nat.mul_assoc]
            exact h i
      rw [mul?_eq_some hx, Option.bind_eq_bind, Option.bind_some, hstep, List.prod_cons, ← Nat.mul_assoc]
      exact ih hx
    · refine .inr ⟨fun h => hx ?_, by rw [mul?_eq_none hx]; rfl⟩
      have := h 1
      rwa [List.take_succ_cons, List.take_zero, List.prod_singleton] at this

theorem product_eq_ok {xs : List Nat} (h0 : 0 ∉ xs) (h : xs.prod < 2 ^ 64) :
    product xs = .ok xs.prod := by
  have := foldlM_mul xs 1 h0 (by omega)
  rw [Nat.one_mul] at this
  exact this

end Word

/-! ## Shapes that were accepted -/

namespace Shape

def stridesOf : List Nat → List Nat
  | [] => []
  | _ :: ds => ds.prod :: stridesOf ds

/-- The shape with these extents, whatever their products. -/
def rowMajor (dims : List Nat) : Shape := ⟨dims, stridesOf dims, dims.prod⟩

@[simp] theorem rowMajor_dims (dims : List Nat) : (rowMajor dims).dims = dims := rfl
@[simp] theorem rowMajor_strides (dims : List Nat) : (rowMajor dims).strides = stridesOf dims := rfl
@[simp] theorem rowMajor_size (dims : List Nat) : (rowMajor dims).size = dims.prod := rfl
@[simp] theorem rowMajor_rank (dims : List Nat) : (rowMajor dims).rank = dims.length := rfl

theorem length_stridesOf (ds : List Nat) : (stridesOf ds).length = ds.length := by
  induction ds with
  | nil => rfl
  | cons d ds ih => simp [stridesOf, ih]

theorem strides?_eq {ds st : List Nat} {n : Nat} (h : strides? ds = some (st, n)) :
    st = stridesOf ds ∧ n = ds.prod ∧ n < 2 ^ 64 := by
  induction ds generalizing st n with
  | nil =>
    simp only [strides?, Option.some.injEq, Prod.mk.injEq] at h
    obtain ⟨rfl, rfl⟩ := h
    exact ⟨rfl, rfl, by decide⟩
  | cons d ds ih =>
    simp only [strides?, Option.bind_eq_bind, Option.bind_eq_some_iff, Option.pure_def, Option.some.injEq,
      Prod.mk.injEq, Prod.exists, Word.mul?] at h
    obtain ⟨st', n', h', m, hm, rfl, rfl⟩ := h
    obtain ⟨rfl, rfl, _⟩ := ih h'
    split at hm
    · rename_i hlt
      obtain rfl := Option.some.inj hm
      exact ⟨rfl, by rw [List.prod_cons, Nat.mul_comm], hlt⟩
    · cases hm

theorem strides?_eq_some {ds : List Nat} (h : ∀ i, (ds.drop i).prod < 2 ^ 64) :
    strides? ds = some (stridesOf ds, ds.prod) := by
  induction ds with
  | nil => rfl
  | cons d ds ih =>
    have hrest := ih fun i => h (i + 1)
    have hall : ds.prod * d < 2 ^ 64 := by
      rw [Nat.mul_comm, ← List.prod_cons]
      exact h 0
    simp [strides?, hrest, Word.mul?_eq_some hall, stridesOf, Nat.mul_comm]

theorem ofDims_eq_ok {dims : List Nat} {s : Shape} (h : ofDims dims = .ok s) :
    s = rowMajor dims ∧ dims.prod < 2 ^ 64 := by
  unfold ofDims at h
  split at h
  · rename_i st n hs
    obtain ⟨rfl, rfl, hlt⟩ := strides?_eq hs
    exact ⟨(Outcome.ok.inj h).symm, hlt⟩
  · cases h

theorem ofDims_of_drop {dims : List Nat} (h : ∀ i, (dims.drop i).prod < 2 ^ 64) :
    ofDims dims = .ok (rowMajor dims) := by
  unfold ofDims
  rw [strides?_eq_some h]
  rfl

theorem ofDims_of_prod {dims : List Nat} (h0 : 0 ∉ dims) (h : dims.prod < 2 ^ 64) :
    ofDims dims = .ok (rowMajor dims) := by
  apply ofDims_of_drop
  intro i
  have hle := Nat.le_of_dvd (Nat.pos_of_ne_zero (List.prod_ne_zero h0)) (List.drop_sublist i dims).prod_dvd_prod
  omega

theorem extent_lt {dims : List Nat} (h0 : 0 ∉ dims) (h : dims.prod < 2 ^ 64) : ∀ d ∈ dims, d < 2 ^ 64 := by
  intro d hd
  have := Nat.le_of_dvd (Nat.pos_of_ne_zero (List.prod_ne_zero h0)) (List.dvd_prod hd)
  omega

/-! ## Numbers of coordinates -/

theorem dot_lt_prod {ds cs : List Nat} (h : List.Forall₂ (· < ·) cs ds) : dot (stridesOf ds) cs < ds.prod := by
  induction h with
  | nil => exact Nat.one_pos
  | @cons c d cs ds hc _ ih =>
    have hle : ds.prod * (c + 1) ≤ ds.prod * d := Nat.mul_le_mul_left _ hc
    rw [stridesOf, dot_cons, List.prod_cons, Nat.mul_comm d]
    rw [Nat.mul_add] at hle
    omega

theorem length_after {ds cs : List Nat} (h : List.Forall₂ (· < ·) cs ds) :
    (Odometer.after ds cs).length + dot (stridesOf ds) cs + 1 = ds.prod := by
  induction h with
  | nil => rfl
  | @cons c d cs ds hc _ ih =>
    obtain ⟨k, rfl⟩ : ∃ k, d = c + 1 + k := ⟨d - (c + 1), by omega⟩
    have hrows : (c + 1 + k) * ds.prod = ds.prod * c + ds.prod + k * ds.prod := by ring
    simp only [Odometer.after, stridesOf, dot_cons, List.prod_cons, List.length_append, List.length_map,
      List.length_flatMap, Odometer.length_grid, List.map_const', List.length_range', List.sum_replicate_nat,
      Nat.add_sub_cancel_left, hrows]
    omega

theorem flatMap_rows (n d : Nat) :
    ((List.range d).flatMap fun c => (List.range n).map (n * c + ·)) = List.range (d * n) := by
  induction d with
  | zero => simp
  | succ d ih =>
    rw [List.range_succ, List.flatMap_append, ih, Nat.succ_mul, List.range_add]
    simp [Nat.mul_comm]

/-- In lexicographic order the elements have the numbers `0, 1, 2, …`. -/
theorem map_dot_grid (ds : List Nat) : (Odometer.grid ds).map (dot (stridesOf ds)) = List.range ds.prod := by
  induction ds with
  | nil => rfl
  | cons d ds ih =>
    have hrow : ∀ c, ((Odometer.grid ds).map (c :: ·)).map (dot (stridesOf (d :: ds))) =
        (List.range ds.prod).map (ds.prod * c + ·) := by
      intro c
      rw [← ih]
      simp [stridesOf, Function.comp_def]
    simp only [Odometer.grid, List.map_flatMap, hrow, flatMap_rows, List.prod_cons]

theorem getElem?_grid {ds c : List Nat} (hc : List.Forall₂ (· < ·) c ds) :
    (Odometer.grid ds)[dot (stridesOf ds) c]? = some c := by
  obtain ⟨i, hi⟩ := List.getElem?_of_mem (Odometer.mem_grid.mpr hc)
  have hnumber : (List.range ds.prod)[i]? = some (dot (stridesOf ds) c) := by
    rw [← map_dot_grid, List.getElem?_map, hi]
    rfl
  obtain ⟨_, hget⟩ := List.getElem?_eq_some_iff.mp hnumber
  rw [List.getElem_range] at hget
  rwa [← hget]

theorem exists_coord {ds : List Nat} {i : Nat} (hi : i < ds.prod) :
    ∃ c, List.Forall₂ (· < ·) c ds ∧ dot (stridesOf ds) c = i := by
  have hm : i ∈ (Odometer.grid ds).map (dot (stridesOf ds)) := by
    rw [map_dot_grid]
    exact List.mem_range.mpr hi
  obtain ⟨c, hc, hdot⟩ := List.mem_map.mp hm
  exact ⟨c, Odometer.mem_grid.mp hc, hdot⟩

theorem contains_iff {s : Shape} {c : List Nat} :
    s.contains c = true ↔ List.Forall₂ (· < ·) c s.dims := by
  simp only [contains, rank, Bool.and_eq_true, beq_iff_eq, List.all_eq_true, decide_eq_true_eq,
    List.forall₂_iff_zip, Prod.forall]

/-- What the faster extents can still add to a sum of steps keeps it below the size, so a coordinate that is too large
is met before the sum leaves the words. -/
theorem flatFrom_cases {ds c : List Nat} {acc : Nat} (hl : c.length = ds.length) (h : acc + ds.prod < 2 ^ 64) :
    (List.Forall₂ (· < ·) c ds ∧ flatFrom acc c ds (stridesOf ds) = .ok (acc + dot (stridesOf ds) c)) ∨
      (¬ List.Forall₂ (· < ·) c ds ∧ ∃ i d, flatFrom acc c ds (stridesOf ds) = .fail (.outOfBounds i 0 d)) := by
  induction ds generalizing c acc with
  | nil =>
    obtain rfl := List.eq_nil_of_length_eq_zero hl
    exact .inl ⟨.nil, rfl⟩
  | cons d ds ih =>
    obtain ⟨i, c, rfl⟩ := List.exists_cons_of_length_eq_add_one hl
    rw [stridesOf, flatFrom, List.forall₂_cons]
    by_cases hi : i < d
    · have hrow : (i + 1) * ds.prod ≤ d * ds.prod := Nat.mul_le_mul_right _ hi
      rw [List.prod_cons] at h
      rw [Nat.succ_mul] at hrow
      rw [if_pos hi, Word.mul_eq_ok (by omega), Outcome.ok_bind, Word.add_eq_ok (by omega), Outcome.ok_bind, dot_cons,
        ← Nat.add_assoc, Nat.mul_comm ds.prod]
      simpa [hi] using ih (by simpa using hl) (show acc + i * ds.prod + ds.prod < 2 ^ 64 by omega)
    · rw [if_neg hi]
      exact .inr ⟨fun h => hi h.1, i, d, rfl⟩

theorem flatIndex_cases {dims : List Nat} (hp : dims.prod < 2 ^ 64) (c : List Nat) :
    (List.Forall₂ (· < ·) c dims ∧ (rowMajor dims).flatIndex c = .ok (dot (stridesOf dims) c)) ∨
      (¬ List.Forall₂ (· < ·) c dims ∧ ∃ e, (rowMajor dims).flatIndex c = .fail e) := by
  unfold flatIndex
  by_cases hl : c.length = dims.length
  · have h := flatFrom_cases hl (show 0 + dims.prod < 2 ^ 64 by omega)
    rw [Nat.zero_add] at h
    rw [rowMajor_rank, if_pos hl]
    rcases h with h | ⟨hout, i, d, h⟩
    · exact .inl h
    · exact .inr ⟨hout, _, h⟩
  · rw [rowMajor_rank, if_neg hl]
    exact .inr ⟨fun h => hl h.length_eq, _, rfl⟩

theorem flatIndex_eq_ok {dims c : List Nat} (hs : dims.prod < 2 ^ 64) (hc : List.Forall₂ (· < ·) c dims) :
    (rowMajor dims).flatIndex c = .ok (dot (stridesOf dims) c) := by
  rcases flatIndex_cases hs c with ⟨-, h⟩ | ⟨hout, -⟩
  · exact h
  · exact absurd hc hout

theorem unravelOver_eq_ok {ds c : List Nat} (hc : List.Forall₂ (· < ·) c ds) :
    unravelOver (dot (stridesOf ds) c) (stridesOf ds) = .ok c := by
  induction hc with
  | nil => rfl
  | @cons i d c ds _ hc ih =>
    have hlt := dot_lt_prod hc
    have hpos : 0 < ds.prod := by omega
    rw [stridesOf, dot_cons, unravelOver, Word.div_eq_ok (by omega), Outcome.ok_bind, Word.mod_eq_ok (by omega),
      Outcome.ok_bind, Nat.mul_add_div hpos, Nat.div_eq_of_lt hlt, Nat.add_zero, Nat.mul_add_mod,
      Nat.mod_eq_of_lt hlt, ih]
    rfl

theorem unravel_eq_ok {dims c : List Nat} (hc : List.Forall₂ (· < ·) c dims) :
    (rowMajor dims).unravel (dot (stridesOf dims) c) = .ok c := by
  rw [unravel, rowMajor_size, if_pos (dot_lt_prod hc)]
  exact unravelOver_eq_ok hc

end Shape

end Ragged

import Ragged.Proofs.Numbering

/-!
# Coordinates and numbers

Extents are accepted if the elements of the whole array, and of every part of it that varies faster, can be counted in
a word. Then the coordinates of the shape and the numbers below its size correspond to each other, in the same order.
A coordinate that is refused is refused before any sum on the way leaves the words.
-/

namespace Ragged.Shape

/-! ## Accepted extents -/

theorem prod_drop_lt {ds st : List Nat} {n : Nat} (h : strides? ds = some (st, n)) (i : Nat) :
    (ds.drop i).prod < 2 ^ 64 := by
  induction ds generalizing st n i with
  | nil => simp
  | cons d ds ih =>
    cases i with
    | zero =>
      obtain ⟨-, rfl, hlt⟩ := strides?_eq h
      exact hlt
    | succ i =>
      simp only [strides?, Option.bind_eq_bind, Option.bind_eq_some_iff] at h
      obtain ⟨rest, hrest, -⟩ := h
      exact ih hrest i

theorem ofDims_cases (dims : List Nat) :
    ((∀ i, (dims.drop i).prod < 2 ^ 64) ∧ ofDims dims = .ok (rowMajor dims)) ∨
      (¬ (∀ i, (dims.drop i).prod < 2 ^ 64) ∧ ∃ e, ofDims dims = .fail e) := by
  by_cases h : ∀ i, (dims.drop i).prod < 2 ^ 64
  · exact .inl ⟨h, ofDims_of_drop h⟩
  · refine .inr ⟨h, ?_⟩
    unfold ofDims
    cases hst : strides? dims with
    | some r => exact absurd (prod_drop_lt hst) h
    | none => exact ⟨_, rfl⟩

theorem getElem?_stridesOf {ds : List Nat} {i : Nat} (hi : i < ds.length) :
    (stridesOf ds)[i]? = some (ds.drop (i + 1)).prod := by
  induction ds generalizing i with
  | nil => cases hi
  | cons d ds ih =>
    cases i with
    | zero => rfl
    | succ i => exact ih (Nat.lt_of_succ_lt_succ hi)

/-! ## Numbers of coordinates -/

theorem unravel_cases (dims : List Nat) (n : Nat) :
    (∃ c, List.Forall₂ (· < ·) c dims ∧ dot (stridesOf dims) c = n ∧ (rowMajor dims).unravel n = .ok c) ∨
      (¬ n < dims.prod ∧ (rowMajor dims).unravel n = .fail (.outOfBounds n 0 dims.prod)) := by
  by_cases hn : n < dims.prod
  · obtain ⟨c, hc, rfl⟩ := exists_coord hn
    exact .inl ⟨c, hc, rfl, unravel_eq_ok hc⟩
  · exact .inr ⟨hn, if_neg hn⟩

theorem dot_lt_dot {ds c c' : List Nat} (hc : List.Forall₂ (· < ·) c ds) (hc' : List.Forall₂ (· < ·) c' ds)
    (h : c < c') : dot (stridesOf ds) c < dot (stridesOf ds) c' := by
  induction hc generalizing c' with
  | nil =>
    cases hc'
    exact absurd h (List.lt_irrefl _)
  | @cons i d c ds hi hc ih =>
    obtain _ | ⟨hj, hc'⟩ := hc'
    rename_i j c'
    rw [stridesOf, dot_cons, dot_cons]
    rcases List.cons_lt_cons_iff.mp h with hlt | ⟨rfl, hlt⟩
    · have hrow : ds.prod * (i + 1) ≤ ds.prod * j := Nat.mul_le_mul_left _ hlt
      have := dot_lt_prod hc
      rw [Nat.mul_succ] at hrow
      omega
    · have := ih hc' hlt
      omega

/-! ## The correspondence -/

/-- Coordinates have numbers below the size and numbers have coordinates, each the inverse of the other and in the same
order. What is outside of the shape is refused, and nothing traps. -/
structure Numbered (s : Shape) : Prop where
  index_iff : ∀ c, (∃ n, s.flatIndex c = .ok n) ↔ s.contains c = true
  index : ∀ {c n}, s.flatIndex c = .ok n → n < s.size ∧ s.unravel n = .ok c
  coord_iff : ∀ n, (∃ c, s.unravel n = .ok c) ↔ n < s.size
  coord : ∀ {n c}, s.unravel n = .ok c → s.contains c = true ∧ s.flatIndex c = .ok n
  increasing : ∀ {c c' n n'}, s.flatIndex c = .ok n → s.flatIndex c' = .ok n' → c < c' → n < n'
  index_ne_trap : ∀ c, s.flatIndex c ≠ .trap
  coord_ne_trap : ∀ n, s.unravel n ≠ .trap

theorem flatIndex_eq_ok_iff {dims c : List Nat} {n : Nat} (hp : dims.prod < 2 ^ 64) :
    (rowMajor dims).flatIndex c = .ok n ↔ List.Forall₂ (· < ·) c dims ∧ dot (stridesOf dims) c = n := by
  rcases flatIndex_cases hp c with ⟨hc, h⟩ | ⟨hc, e, h⟩
  · simp [h, hc]
  · simp [h, hc]

theorem unravel_eq_ok_iff {dims c : List Nat} {n : Nat} :
    (rowMajor dims).unravel n = .ok c ↔ List.Forall₂ (· < ·) c dims ∧ dot (stridesOf dims) c = n := by
  constructor
  · intro h
    rcases unravel_cases dims n with ⟨c', hc', hn, h'⟩ | ⟨-, h'⟩
    · obtain rfl := Outcome.ok.inj (h'.symm.trans h)
      exact ⟨hc', hn⟩
    · rw [h'] at h
      cases h
  · rintro ⟨hc, rfl⟩
    exact unravel_eq_ok hc

theorem numbered_rowMajor {dims : List Nat} (hp : dims.prod < 2 ^ 64) : (rowMajor dims).Numbered where
  index_iff c := by simp [flatIndex_eq_ok_iff hp, contains_iff]
  index h := by
    obtain ⟨hc, rfl⟩ := (flatIndex_eq_ok_iff hp).mp h
    exact ⟨dot_lt_prod hc, unravel_eq_ok hc⟩
  coord_iff n := by
    rcases unravel_cases dims n with ⟨c, hc, rfl, h⟩ | ⟨hn, h⟩
    · simp [h, dot_lt_prod hc]
    · simp [h, hn]
  coord h := by
    obtain ⟨hc, rfl⟩ := unravel_eq_ok_iff.mp h
    exact ⟨contains_iff.mpr hc, flatIndex_eq_ok hp hc⟩
  increasing h h' hlt := by
    obtain ⟨hc, rfl⟩ := (flatIndex_eq_ok_iff hp).mp h
    obtain ⟨hc', rfl⟩ := (flatIndex_eq_ok_iff hp).mp h'
    exact dot_lt_dot hc hc' hlt
  index_ne_trap c := by
    rcases flatIndex_cases hp c with ⟨-, h⟩ | ⟨-, e, h⟩
    · simp [h]
    · simp [h]
  coord_ne_trap n := by
    rcases unravel_cases dims n with ⟨c, -, -, h⟩ | ⟨-, h⟩
    · simp [h]
    · simp [h]

/-- Extents are accepted if and only if the products from each of them on are words, and are refused without a trap
otherwise. The strides of an accepted shape are the products of the faster extents, its size is that of all of them,
and its coordinates correspond to the numbers below the size. -/
theorem accepted_numbers (dims : List Nat) :
    ofDims dims ≠ .trap ∧
    ((∃ s, ofDims dims = .ok s) ↔ ∀ i, (dims.drop i).prod < 2 ^ 64) ∧
    ∀ s, ofDims dims = .ok s →
      s.dims = dims ∧ s.size = dims.prod ∧ s.strides.length = dims.length ∧
      (∀ i, i < dims.length → s.strides[i]? = some (dims.drop (i + 1)).prod) ∧
      s.Numbered := by
  rcases ofDims_cases dims with ⟨hwords, h⟩ | ⟨hwords, e, h⟩
  · refine ⟨by simp [h], ⟨fun _ => hwords, fun _ => ⟨_, h⟩⟩, fun s hs => ?_⟩
    obtain rfl := Outcome.ok.inj (h.symm.trans hs)
    exact ⟨rfl, rfl, length_stridesOf dims, fun i hi => getElem?_stridesOf hi, numbered_rowMajor (hwords 0)⟩
  · have hnone : ¬ ∃ s, ofDims dims = .ok s := by simp [h]
    exact ⟨by simp [h], iff_of_false hnone hwords, fun s hs => absurd ⟨s, hs⟩ hnone⟩

theorem accepted_numbers_near_the_bound :
    let s := rowMajor [4294967296, 4294967295]
    ofDims [4294967296, 4294967295] = .ok s ∧ s.unravel (s.size - 1) = .ok [4294967295, 4294967294] ∧
      s.flatIndex [4294967295, 4294967294] = .ok (s.size - 1) ∧ (¬ ∃ c, s.unravel s.size = .ok c) ∧
      (∃ s, ofDims [9223372036854775808, 4, 0] = .ok s) ∧ ¬ ∃ s, ofDims [0, 9223372036854775808, 4] = .ok s := by
  intro s
  have hs : ofDims [4294967296, 4294967295] = .ok s := by decide
  have hlast : s.unravel (s.size - 1) = .ok [4294967295, 4294967294] := by decide
  obtain ⟨-, -, haccepted⟩ := accepted_numbers [4294967296, 4294967295]
  obtain ⟨-, -, -, -, hnumbered⟩ := haccepted s hs
  refine ⟨hs, hlast, (hnumbered.coord hlast).2, ?_, ⟨_, rfl⟩, ?_⟩
  · rw [hnumbered.coord_iff]
    exact Nat.lt_irrefl _
  · rw [(accepted_numbers [0, 9223372036854775808, 4]).2.1]
    intro h
    exact absurd (h 1) (by decide)

/-! ## Constructors -/

/-- The shapes that can be made: those of accepted extents, the scalar, and the one whose fields are the defaults. -/
inductive Constructed : Shape → Prop
  | ofDims {dims : List Nat} {s : Shape} (h : Shape.ofDims dims = .ok s) : Constructed s
  | scalar : Constructed Shape.scalar
  | derived : Constructed default

/-- The strides and the size are those of the extents, and the elements are numbered. -/
structure Consistent (s : Shape) : Prop where
  size : s.size = s.dims.prod
  rank : s.strides.length = s.dims.length
  stride : ∀ i, i < s.dims.length → s.strides[i]? = some (s.dims.drop (i + 1)).prod
  numbered : s.Numbered

theorem consistent_rowMajor {dims : List Nat} (hp : dims.prod < 2 ^ 64) : (rowMajor dims).Consistent where
  size := rfl
  rank := length_stridesOf dims
  stride _ hi := getElem?_stridesOf hi
  numbered := numbered_rowMajor hp

theorem Constructed.cases {s : Shape} (h : Constructed s) :
    s = default ∨ s = rowMajor s.dims ∧ s.dims.prod < 2 ^ 64 := by
  cases h with
  | @ofDims dims s h =>
    rcases ofDims_cases dims with ⟨hwords, hok⟩ | ⟨-, e, hfail⟩
    · obtain rfl := Outcome.ok.inj (hok.symm.trans h)
      exact .inr ⟨rfl, hwords 0⟩
    · rw [hfail] at h
      cases h
  | scalar => exact .inr ⟨rfl, by decide⟩
  | derived => exact .inl rfl

theorem not_consistent_default : ¬ (default : Shape).Consistent := fun h => absurd h.size (by decide)

/-- All shapes that can be made are consistent but the default one. It has the extents of the scalar and no element, and
so it has a number for the coordinate of the scalar but no coordinate for that number. Shapes are told apart by their
extents, and by whether they are the default one. -/
theorem constructed_consistent {s s' : Shape} (h : Constructed s) (h' : Constructed s') :
    (s.Consistent ↔ s ≠ default) ∧ (s = s' ↔ s.dims = s'.dims ∧ (s = default ↔ s' = default)) ∧
    (s = default → s.dims = scalar.dims ∧ s.size = 0 ∧ s.flatIndex [] = .ok 0 ∧
      s.unravel 0 = .fail (.outOfBounds 0 0 0)) := by
  refine ⟨⟨?_, fun hne => ?_⟩, ⟨?_, fun ⟨hdims, hdefault⟩ => ?_⟩, ?_⟩
  · rintro hs rfl
    exact not_consistent_default hs
  · obtain ⟨hs, hp⟩ := h.cases.resolve_left hne
    rw [hs]
    exact consistent_rowMajor hp
  · rintro rfl
    exact ⟨rfl, Iff.rfl⟩
  · rcases h.cases with hs | ⟨hs, -⟩
    · rw [hs, hdefault.mp hs]
    · rcases h'.cases with hs' | ⟨hs', -⟩
      · rw [hs', hdefault.mpr hs']
      · rw [hs, hs', hdims]
  · rintro rfl
    decide

theorem constructed_consistent_near_the_bound :
    let s := rowMajor [4294967296, 4294967295]
    let s' := rowMajor [4294967295, 4294967296]
    Constructed s ∧ Constructed s' ∧ s.Consistent ∧ s.size = s'.size ∧ s ≠ s' := by
  intro s s'
  have h : Constructed s := .ofDims (show ofDims [4294967296, 4294967295] = .ok s by decide)
  have h' : Constructed s' := .ofDims (show ofDims [4294967295, 4294967296] = .ok s' by decide)
  obtain ⟨hconsistent, heq, -⟩ := constructed_consistent h h'
  refine ⟨h, h', hconsistent.mpr (by decide), by decide, fun hs => ?_⟩
  exact absurd (heq.mp hs).1 (by decide)

theorem default_inconsistent :
    (¬ ∀ s, Constructed s → s.Consistent) ∧
      ¬ ∀ s s', Constructed s → Constructed s' → (s = s' ↔ s.dims = s'.dims) := by
  constructor
  · intro h
    exact absurd (h default .derived).size (by decide)
  · intro h
    exact absurd ((h default scalar .derived .scalar).mpr rfl) (by decide)

end Ragged.Shape

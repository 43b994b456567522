import Ragged.Proofs.Numbering

/-!
# Slabs inside shapes

`Sized` is what the constructors of slabs promise, `Inside` what `checkWithin` decides. The coordinates of a slab
come in strictly increasing order, so none comes twice.
-/

namespace Ragged

namespace Slab

/-- A slab as it is constructed: a count for every start, and as its size the number of its coordinates. All of a
shape may be given as a slab of size zero whatever its counts are. -/
structure Sized (slab : Slab) : Prop where
  rank : slab.starts.length = slab.counts.length
  size : slab.size = slab.counts.prod ∨ slab.size = 0

/-- Starts and counts that stay below extents, and whose sums are words. -/
inductive Inside : List Nat → List Nat → List Nat → Prop
  | nil : Inside [] [] []
  | cons {start count extent : Nat} {starts counts extents : List Nat} (word : start + count < 2 ^ 64)
      (below : start + count ≤ extent) (rest : Inside starts counts extents) :
      Inside (start :: starts) (count :: counts) (extent :: extents)

def cells (slab : Slab) : List (List Nat) := if slab.size = 0 then [] else slab.coords

theorem Sized.counts_ne_zero {slab : Slab} (h : slab.Sized) (hz : slab.size ≠ 0) : 0 ∉ slab.counts :=
  fun h0 => hz ((h.size.resolve_right hz).trans (List.prod_eq_zero h0))

/-! ## Constructors -/

theorem ofCounts_cases {starts counts : List Nat} (hl : starts.length = counts.length) :
    ((∀ i, (counts.take i).prod < 2 ^ 64) ∧ ofCounts starts counts = .ok ⟨starts, counts, counts.prod⟩) ∨
      (¬ (∀ i, (counts.take i).prod < 2 ^ 64) ∧ ofCounts starts counts =
        .fail (.invalidArgument s!"slab counts {Text.extents counts} overflow a u64")) := by
  have h := Word.foldlM_mul?_cases counts (show 1 < 2 ^ 64 by decide)
  simp only [Nat.one_mul] at h
  rw [ofCounts, if_pos hl, size?]
  rcases h with ⟨hwords, h⟩ | ⟨hwords, h⟩
  · rw [h]
    exact .inl ⟨hwords, rfl⟩
  · rw [h]
    exact .inr ⟨hwords, rfl⟩

theorem ofCounts_sized {starts counts : List Nat} {slab : Slab} (h : ofCounts starts counts = .ok slab) :
    slab.Sized := by
  by_cases hl : starts.length = counts.length
  · rcases ofCounts_cases hl with ⟨-, hok⟩ | ⟨-, hfail⟩
    · obtain rfl := Outcome.ok.inj (hok.symm.trans h)
      exact ⟨hl, .inl rfl⟩
    · rw [hfail] at h
      cases h
  · rw [ofCounts, if_neg hl] at h
    cases h

theorem whole_rowMajor_sized (dims : List Nat) : (whole (Shape.rowMajor dims)).Sized :=
  ⟨by simp [whole], Or.inl rfl⟩

theorem whole_default_sized : (whole default).Sized := ⟨rfl, Or.inr rfl⟩

theorem element_sized (coord : List Nat) : (element coord).Sized :=
  ⟨by simp [element], Or.inl (by simp [element])⟩

theorem range_sized (start count : Nat) : (range start count).Sized :=
  ⟨rfl, Or.inl (by simp [range])⟩

/-! ## The check -/

theorem Inside.length_eq {starts counts dims : List Nat} (h : Inside starts counts dims) :
    starts.length = counts.length ∧ starts.length = dims.length := by
  induction h with
  | nil => exact ⟨rfl, rfl⟩
  | cons _ _ _ ih => simp [ih.1, ← ih.2]

theorem checkDims_eq_ok {slab : Slab} {starts counts dims : List Nat} (h₁ : starts.length = counts.length)
    (h₂ : starts.length = dims.length) :
    checkDims slab starts counts dims = .ok () ↔ Inside starts counts dims := by
  induction starts generalizing counts dims with
  | nil =>
    obtain rfl := List.eq_nil_of_length_eq_zero h₁.symm
    obtain rfl := List.eq_nil_of_length_eq_zero h₂.symm
    simp [checkDims, Inside.nil]
  | cons start starts ih =>
    obtain ⟨count, counts, rfl⟩ := List.exists_cons_of_length_eq_add_one h₁.symm
    obtain ⟨extent, dims, rfl⟩ := List.exists_cons_of_length_eq_add_one h₂.symm
    have ih := @ih counts dims (by simpa using h₁) (by simpa using h₂)
    unfold checkDims
    by_cases hw : start + count < 2 ^ 64
    · rw [Word.add?_eq_some hw]
      dsimp only
      by_cases hb : start + count ≤ extent
      · rw [if_pos hb, ih]
        constructor
        · exact .cons hw hb
        · rintro (_ | ⟨_, _, h⟩)
          exact h
      · rw [if_neg hb]
        constructor
        · intro h; cases h
        · rintro (_ | ⟨_, hb', _⟩)
          exact absurd hb' hb
    · rw [Word.add?_eq_none hw]
      constructor
      · intro h; cases h
      · rintro (_ | ⟨hw', _, _⟩)
        exact absurd hw' hw

theorem checkWithin_eq_ok {slab : Slab} (hs : slab.starts.length = slab.counts.length) {s : Shape} :
    slab.checkWithin s = .ok () ↔ Inside slab.starts slab.counts s.dims := by
  unfold checkWithin
  by_cases h : slab.rank = s.rank
  · rw [if_pos h]
    exact checkDims_eq_ok hs h
  · rw [if_neg h]
    constructor
    · intro hf; cases hf
    · intro hi; exact absurd hi.length_eq.2 h

/-! ## Coordinates -/

theorem coordsOf_sorted (starts counts : List Nat) : (coordsOf starts counts).Pairwise (· < ·) := by
  induction starts generalizing counts with
  | nil => exact List.pairwise_singleton _ _
  | cons start starts ih =>
    cases counts with
    | nil => exact List.pairwise_singleton _ _
    | cons count counts => exact Odometer.rows_sorted List.pairwise_lt_range' (ih counts)

theorem coordsOf_nodup (starts counts : List Nat) : (coordsOf starts counts).Nodup :=
  Odometer.nodup_of_sorted (coordsOf_sorted starts counts)

theorem coordsOf_eq {starts counts : List Nat} (h : starts.length = counts.length) :
    coordsOf starts counts = (Odometer.grid counts).map (List.zipWith (· + ·) starts) := by
  induction starts generalizing counts with
  | nil =>
    obtain rfl := List.eq_nil_of_length_eq_zero h.symm
    rfl
  | cons start starts ih =>
    obtain ⟨count, counts, rfl⟩ := List.exists_cons_of_length_eq_add_one h.symm
    have ih := @ih counts (by simpa using h)
    simp only [coordsOf, Odometer.grid, ih, List.range'_eq_map_range, List.map_flatMap, List.flatMap_map,
      List.map_map, Function.comp_def, List.zipWith_cons_cons]

theorem length_coordsOf {starts counts : List Nat} (h : starts.length = counts.length) :
    (coordsOf starts counts).length = counts.prod := by
  rw [coordsOf_eq h, List.length_map, Odometer.length_grid]

theorem Inside.coord_lt {starts counts dims : List Nat} (h : Inside starts counts dims) {c : List Nat}
    (hc : c ∈ coordsOf starts counts) : List.Forall₂ (· < ·) c dims := by
  induction h generalizing c with
  | nil =>
    obtain rfl := List.mem_singleton.mp hc
    exact .nil
  | cons _ hb _ ih =>
    simp only [coordsOf, List.mem_flatMap, List.mem_map, List.mem_range'_1] at hc
    obtain ⟨i, hi, cs, hcs, rfl⟩ := hc
    exact .cons (by omega) (ih hcs)

theorem Sized.length_cells {slab : Slab} (h : slab.Sized) : slab.cells.length = slab.size := by
  unfold cells
  by_cases hz : slab.size = 0
  · simp [hz]
  · rw [if_neg hz]
    have hp := h.size.resolve_right hz
    rw [coords, length_coordsOf h.rank, hp]

theorem cells_range (start count : Nat) :
    (range start count).cells = (List.range' start count).map fun i => [i] := by
  unfold cells
  cases count with
  | zero => rfl
  | succ n => exact List.map_eq_flatMap.symm

theorem cells_nodup (slab : Slab) : slab.cells.Nodup := by
  unfold cells
  by_cases hz : slab.size = 0
  · simp [hz]
  · rw [if_neg hz]
    exact coordsOf_nodup _ _

end Slab

end Ragged

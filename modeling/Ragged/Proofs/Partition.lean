import Ragged.Proofs.Bijection
import Ragged.Proofs.Runs

/-!
# Slabs as partitioned into runs

`coordOf` leads back from a cell of a chunk to the coordinate of its element. Led back in this way, the runs of a slab
are its coordinates, each once and in their order. The elements of a run follow each other along a row, and no chunk is
met twice in a row.
-/

namespace Ragged

open Slab (Inside coordsOf)

/-- The coordinate of a cell: that of its chunk in the grid, in cells, and that of the cell in the chunk. -/
def coordOf (chunk key : List Nat) (cell : Nat) : Outcome (List Nat) := do
  let inner ← (Shape.rowMajor chunk).unravel cell
  return List.zipWith (· + ·) (List.zipWith (· * ·) key chunk) inner

theorem coordOf_cons {e c cell : Nat} {chunk key coord : List Nat} (he : e ≠ 0)
    (h : coordOf chunk key cell = .ok coord) :
    coordOf (e :: chunk) (c / e :: key) (chunk.prod * (c % e) + cell) = .ok (c :: coord) := by
  obtain ⟨inner, hinner, hcoord⟩ := Outcome.bind_eq_ok.mp h
  obtain rfl := Outcome.ok.inj hcoord
  obtain ⟨hlt, rfl⟩ := Shape.unravel_eq_ok_iff.mp hinner
  have hwhole : (Shape.rowMajor (e :: chunk)).unravel (chunk.prod * (c % e) + dot (Shape.stridesOf chunk) inner) =
      .ok (c % e :: inner) :=
    Shape.unravel_eq_ok_iff.mpr ⟨.cons (Nat.mod_lt _ (Nat.pos_of_ne_zero he)) hlt, rfl⟩
  rw [coordOf, hwhole]
  simp only [Outcome.ok_bind, Outcome.pure_eq, List.zipWith_cons_cons, Nat.div_add_mod']

theorem coordOf_place {chunk coord : List Nat} (h0 : 0 ∉ chunk) (hl : coord.length = chunk.length) :
    coordOf chunk (place chunk coord).1 (place chunk coord).2 = .ok coord := by
  induction chunk generalizing coord with
  | nil =>
    obtain rfl := List.eq_nil_of_length_eq_zero hl
    rfl
  | cons e chunk ih =>
    obtain ⟨c, coord, rfl⟩ := List.exists_cons_of_length_eq_add_one hl
    obtain ⟨he, hes⟩ := List.ne_and_not_mem_of_not_mem_cons h0
    have hl : coord.length = chunk.length := by simpa using hl
    exact coordOf_cons (Ne.symm he) (ih hes hl)

theorem place_inside {chunk key inner : List Nat} (hl : key.length = chunk.length)
    (hin : List.Forall₂ (· < ·) inner chunk) :
    place chunk (List.zipWith (· + ·) (List.zipWith (· * ·) key chunk) inner) =
      (key, dot (Shape.stridesOf chunk) inner) := by
  induction hin generalizing key with
  | nil =>
    obtain rfl := List.eq_nil_of_length_eq_zero hl
    rfl
  | @cons x e inner chunk hx _ ih =>
    obtain ⟨k, key, rfl⟩ := List.exists_cons_of_length_eq_add_one hl
    have ih := ih (show key.length = chunk.length by simpa using hl)
    have hdiv : (k * e + x) / e = k := by
      rw [Nat.mul_comm, Nat.mul_add_div (Nat.zero_lt_of_lt hx), Nat.div_eq_of_lt hx, Nat.add_zero]
    have hmod : (k * e + x) % e = x := by rw [Nat.mul_comm, Nat.mul_add_mod, Nat.mod_eq_of_lt hx]
    rw [List.zipWith_cons_cons, List.zipWith_cons_cons, place_cons, ih, hdiv, hmod]
    rfl

theorem exists_coordOf {chunk key : List Nat} (hl : key.length = chunk.length) {cell : Nat}
    (hcell : cell < chunk.prod) :
    ∃ coord, coordOf chunk key cell = .ok coord ∧ coord.length = chunk.length ∧ place chunk coord = (key, cell) := by
  obtain ⟨inner, hin, rfl⟩ := Shape.exists_coord hcell
  have hplace := place_inside hl hin
  refine ⟨_, ?_, ?_, hplace⟩
  · rw [coordOf, Shape.unravel_eq_ok hin]
    rfl
  · rw [List.length_zipWith, List.length_zipWith, hin.length_eq, hl, Nat.min_self, Nat.min_self]

namespace Run

def coords (chunk : List Nat) (r : Run) : List (Outcome (List Nat)) :=
  (List.range r.length).map fun i => coordOf chunk r.chunk (r.offset + i)

theorem coords_eq (chunk : List Nat) (r : Run) : r.coords chunk = r.places.map fun p => coordOf chunk p.1 p.2 := by
  simp only [coords, places, List.range'_eq_map_range, List.map_map]
  rfl

/-! ## Rows -/

def Along (chunk row : List Nat) (c : Nat) (r : Run) : Prop :=
  ∀ i, i < r.length → coordOf chunk r.chunk (r.offset + i) = .ok (row ++ [c + i])

/-- The chunks of two runs differ if their rows are the same. -/
def Apart (chunk : List Nat) (r r' : Run) : Prop :=
  ∀ row c c', r.Along chunk row c → r'.Along chunk row c' → r.chunk ≠ r'.chunk

section
variable {chunk row row' : List Nat} {c c' e x : Nat} {r r' : Run}

theorem Along.unique (h : r.Along chunk row c) (h' : r.Along chunk row' c') (hr : 0 < r.length) : row = row' :=
  (List.append_inj' (Outcome.ok.inj ((h 0 hr).symm.trans (h' 0 hr))) rfl).1

theorem Along.lift (h : r.Along chunk row c) (he : e ≠ 0) :
    (Run.lift e chunk.prod x r).Along (e :: chunk) (x :: row) c := by
  intro i hi
  rw [Run.lift, Nat.add_assoc]
  exact coordOf_cons he (h i hi)

theorem apart_of_along (h : r.Along chunk row c) (hr : 0 < r.length) (h' : r'.Along chunk row' c') (hr' : 0 < r'.length)
    (hne : row = row' → r.chunk ≠ r'.chunk) : Apart chunk r r' := by
  intro row₁ d d' hd hd'
  exact hne ((h.unique hd hr).trans (hd'.unique h' hr'))

end

section
variable {e stop pos : Nat} {runs : List Run} (he : e ≠ 0) (h : Cut e stop pos runs)
include he h

theorem Cut.along : ∀ r ∈ runs, ∃ c, r.Along [e] [] c := by
  induction h with
  | done => nofun
  | @run pos runs hpos rest ih =>
    have := lt_chunkEnd he pos
    rw [List.forall_mem_cons]
    refine ⟨⟨pos, fun i hi => ?_⟩, ih⟩
    dsimp only at hi ⊢
    have hplace : coordOf [e] (place [e] [pos + i]).1 (place [e] [pos + i]).2 = .ok [pos + i] :=
      coordOf_place (by simpa using he.symm) rfl
    rwa [place_row (by omega)] at hplace

theorem Cut.chunk_ge : ∀ r ∈ runs, pos < stop ∧ ∃ key, pos / e ≤ key ∧ r.chunk = [key] := by
  induction h with
  | done => nofun
  | @run pos runs hpos rest ih =>
    have := lt_chunkEnd he pos
    rw [List.forall_mem_cons]
    refine ⟨⟨hpos, _, Nat.le_refl _, rfl⟩, fun r hr => ?_⟩
    obtain ⟨-, key, hkey, hchunk⟩ := ih r hr
    have hle : pos / e ≤ min ((pos / e + 1) * e) stop / e := Nat.div_le_div_right (by omega)
    exact ⟨hpos, key, hle.trans hkey, hchunk⟩

theorem Cut.apart : runs.Pairwise fun r r' => r.chunk ≠ r'.chunk := by
  induction h with
  | done => exact .nil
  | @run pos runs hpos rest ih =>
    refine .cons (fun r' hr' => ?_) ih
    -- there is a next run only if the chunk ends before the row does
    obtain ⟨hnext, key, hkey, hchunk⟩ := rest.chunk_ge he r' hr'
    rw [Nat.min_eq_left (by omega), Nat.mul_div_cancel _ (Nat.pos_of_ne_zero he)] at hkey
    rw [hchunk]
    intro heq
    have := List.singleton_inj.mp heq
    omega

end

section
variable {starts counts chunk : List Nat} {runs : List Run} (h : Box starts counts chunk runs)
include h

theorem Box.along (hne : chunk ≠ []) : ∀ r ∈ runs, ∃ row c, r.Along chunk row c := by
  induction h with
  | point => exact absurd rfl hne
  | row he _ hcut =>
    intro r hr
    exact ⟨[], hcut.along he r hr⟩
  | rows he _ hchunk _ ih =>
    intro r hr
    obtain ⟨x, _, hr⟩ := List.mem_flatMap.mp hr
    obtain ⟨r', hr', rfl⟩ := List.mem_map.mp hr
    obtain ⟨row, c, halong⟩ := ih hchunk r' hr'
    exact ⟨x :: row, c, halong.lift he⟩

theorem Box.apart : runs.Pairwise (Apart chunk) := by
  induction h with
  | point => exact List.pairwise_singleton _ _
  | row he _ hcut => exact (hcut.apart he).imp fun hne _ _ _ _ _ => hne
  | @rows start count e starts counts chunk runs he _ hne inner ih =>
    have hlong : ∀ x r, r ∈ runs → ∃ row c, (Run.lift e chunk.prod x r).Along (e :: chunk) (x :: row) c ∧
        0 < (Run.lift e chunk.prod x r).length ∧ r.Along chunk row c := by
      intro x r hr
      obtain ⟨row, c, halong⟩ := inner.along hne r hr
      exact ⟨row, c, halong.lift he, (inner.fits r hr).1, halong⟩
    rw [List.pairwise_flatMap]
    constructor
    · -- under one coordinate the rows are those of the faster dimensions
      intro x _
      rw [List.pairwise_map]
      refine ih.imp_of_mem fun {r r'} hr hr' hapart => ?_
      obtain ⟨row, c, hlift, hpos, halong⟩ := hlong x r hr
      obtain ⟨row', c', hlift', hpos', halong'⟩ := hlong x r' hr'
      refine apart_of_along hlift hpos hlift' hpos' fun hrow hchunk => ?_
      obtain rfl := List.tail_eq_of_cons_eq hrow
      exact hapart row c c' halong halong' (List.tail_eq_of_cons_eq hchunk)
    · -- under different coordinates they are different
      refine List.Pairwise.imp ?_ List.pairwise_lt_range'
      intro x y hlt s hs s' hs'
      obtain ⟨r, hr, rfl⟩ := List.mem_map.mp hs
      obtain ⟨r', hr', rfl⟩ := List.mem_map.mp hs'
      obtain ⟨row, c, hlift, hpos, -⟩ := hlong x r hr
      obtain ⟨row', c', hlift', hpos', -⟩ := hlong y r' hr'
      refine apart_of_along hlift hpos hlift' hpos' fun hrow => ?_
      exact absurd (List.head_eq_of_cons_eq hrow) (Nat.ne_of_lt hlt)

end

/-! ## Slabs -/

/-- The runs of a slab are its coordinates in their order, cut into rows of one chunk each. -/
structure Partition (chunk : List Nat) (slab : Slab) (runs : List Run) : Prop where
  fits : ∀ r ∈ runs, r.Fits chunk
  place : ∀ r ∈ runs, ∀ i, i < r.length →
    ∃ c ∈ slab.coords, coordOf chunk r.chunk (r.offset + i) = .ok c ∧ place chunk c = (r.chunk, r.offset + i)
  coords : slab.size = slab.counts.prod → runs.flatMap (coords chunk) = slab.coords.map .ok
  along : slab.rank ≠ 0 → ∀ r ∈ runs, ∃ row c, r.Along chunk row c
  apart : runs.Pairwise (Apart chunk)
  empty : slab.size = 0 → runs = []
  point : slab.size ≠ 0 → slab.rank = 0 → runs = [⟨[], 0, 1⟩]

theorem partition_nil {chunk : List Nat} {slab : Slab} (hr : slab.starts.length = slab.counts.length)
    (hz : slab.size = 0) : Partition chunk slab [] where
  fits := nofun
  place := nofun
  coords hsize := by
    have hlength := Slab.length_coordsOf hr
    rw [← hsize, hz] at hlength
    rw [Slab.coords, List.eq_nil_of_length_eq_zero hlength]
    rfl
  along _ := nofun
  apart := .nil
  empty _ := rfl
  point h := absurd hz h

theorem Box.partition {chunk : List Nat} {slab : Slab} {runs : List Run} (h : Box slab.starts slab.counts chunk runs)
    (hl : chunk.length = slab.starts.length) (hc : ∀ c ∈ slab.coords, c.length = chunk.length) (h0 : 0 ∉ chunk)
    (hz : slab.size ≠ 0) : Partition chunk slab runs where
  fits := h.fits
  place r hr i hi := by
    have hmem : (r.chunk, r.offset + i) ∈ runs.flatMap places := by
      refine List.mem_flatMap.mpr ⟨r, hr, List.mem_map.mpr ⟨r.offset + i, ?_, rfl⟩⟩
      exact List.mem_range'_1.mpr ⟨Nat.le_add_right _ _, Nat.add_lt_add_left hi _⟩
    rw [h.places_eq] at hmem
    obtain ⟨c, hmem, hplace⟩ := List.mem_map.mp hmem
    refine ⟨c, hmem, ?_, hplace⟩
    have hback := coordOf_place h0 (hc c hmem)
    rwa [hplace] at hback
  coords _ := by
    rw [funext (coords_eq chunk), ← List.map_flatMap, h.places_eq, List.map_map]
    exact List.map_congr_left fun c hmem => coordOf_place h0 (hc c hmem)
  along hr := h.along (List.ne_nil_of_length_pos (by rw [hl]; exact Nat.pos_of_ne_zero hr))
  apart := h.apart
  empty hz' := absurd hz' hz
  point _ hr := by
    rw [List.eq_nil_of_length_eq_zero hr] at h
    generalize slab.counts = counts at h
    cases h
    rfl

end Run

end Ragged

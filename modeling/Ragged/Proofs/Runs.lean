import Ragged.Proofs.Outcome
import Ragged.Proofs.Slab
import Ragged.Slab.Runs

/-!
# Runs and places

`place` says in which chunk and which cell of it the element at a coordinate lies; different coordinates have
different places. The runs of a slab go through the places of its coordinates in their order.
-/

namespace Ragged

open Slab (Inside coordsOf)

/-- Where an array of chunks keeps the element at a coordinate: the chunk, and the cell in it. -/
def place (chunk coord : List Nat) : List Nat × Nat :=
  (List.zipWith (· / ·) coord chunk, dot (Shape.stridesOf chunk) (List.zipWith (· % ·) coord chunk))

theorem place_cons (e c : Nat) (chunk coord : List Nat) :
    place (e :: chunk) (c :: coord) =
      (c / e :: (place chunk coord).1, chunk.prod * (c % e) + (place chunk coord).2) := rfl

theorem place_lt {chunk coord : List Nat} (h0 : 0 ∉ chunk) (hl : coord.length = chunk.length) :
    (place chunk coord).2 < chunk.prod := by
  induction chunk generalizing coord with
  | nil =>
    obtain rfl := List.eq_nil_of_length_eq_zero hl
    exact Nat.one_pos
  | cons e chunk ih =>
    obtain ⟨c, coord, rfl⟩ := List.exists_cons_of_length_eq_add_one hl
    obtain ⟨he, hes⟩ := List.ne_and_not_mem_of_not_mem_cons h0
    have ih := ih hes (show coord.length = chunk.length by simpa using hl)
    have hc : c % e + 1 ≤ e := Nat.mod_lt _ (by omega)
    have hle := Nat.mul_le_mul_left chunk.prod hc
    rw [Nat.mul_add] at hle
    rw [place_cons, List.prod_cons, Nat.mul_comm e]
    dsimp only
    omega

theorem place_inj {chunk c c' : List Nat} (h0 : 0 ∉ chunk) (hl : c.length = chunk.length)
    (hl' : c'.length = chunk.length) (h : place chunk c = place chunk c') : c = c' := by
  induction chunk generalizing c c' with
  | nil => rw [List.eq_nil_of_length_eq_zero hl, List.eq_nil_of_length_eq_zero hl']
  | cons e chunk ih =>
    obtain ⟨c, cs, rfl⟩ := List.exists_cons_of_length_eq_add_one hl
    obtain ⟨c', cs', rfl⟩ := List.exists_cons_of_length_eq_add_one hl'
    obtain ⟨he, hes⟩ := List.ne_and_not_mem_of_not_mem_cons h0
    have hlt := place_lt hes (show cs.length = chunk.length by simpa using hl)
    have hlt' := place_lt hes (show cs'.length = chunk.length by simpa using hl')
    rw [place_cons, place_cons, Prod.mk.injEq, List.cons.injEq] at h
    obtain ⟨⟨hdiv, hkey⟩, hoff⟩ := h
    have hpos : 0 < chunk.prod := by omega
    have hmod : c % e = c' % e := by
      have := congrArg (· / chunk.prod) hoff
      simpa [Nat.mul_add_div hpos, Nat.div_eq_of_lt hlt, Nat.div_eq_of_lt hlt'] using this
    have hcell : (place chunk cs).2 = (place chunk cs').2 := by
      rw [hmod] at hoff
      omega
    have hc : c = c' := by
      rw [← Nat.div_add_mod c e, ← Nat.div_add_mod c' e, hdiv, hmod]
    rw [hc, ih hes (by simpa using hl) (by simpa using hl') (Prod.ext hkey hcell)]

namespace Run

def places (r : Run) : List (List Nat × Nat) := (List.range' r.offset r.length).map (r.chunk, ·)

/-- A run of at least one cell that stays inside its chunk. -/
def Fits (chunk : List Nat) (r : Run) : Prop := 0 < r.length ∧ r.offset + r.length ≤ chunk.prod

theorem place_row {e pos i : Nat} (h : pos % e + i < e) : place [e] [pos + i] = ([pos / e], pos % e + i) := by
  have hsum : pos + i = e * (pos / e) + (pos % e + i) := by
    have := Nat.div_add_mod pos e
    omega
  have hdiv : (pos + i) / e = pos / e := by
    rw [hsum, Nat.mul_add_div (by omega), Nat.div_eq_of_lt h, Nat.add_zero]
  have hmod : (pos + i) % e = pos % e + i := by
    rw [hsum, Nat.mul_add_mod, Nat.mod_eq_of_lt h]
  simp [place, Shape.stridesOf, hdiv, hmod]

theorem places_row {e pos length : Nat} (h : pos % e + length ≤ e) :
    places ⟨[pos / e], pos % e, length⟩ = (List.range' pos length).map fun c => place [e] [c] := by
  simp only [places, List.range'_eq_map_range, List.map_map]
  apply List.map_congr_left
  intro i hi
  have hlt := List.mem_range.mp hi
  exact (place_row (by omega)).symm

/-- A run under a slower coordinate: the same cells, `c % e` rows further in a chunk of the whole. -/
def lift (e n c : Nat) (r : Run) : Run := ⟨c / e :: r.chunk, n * (c % e) + r.offset, r.length⟩

theorem places_lift (e n c : Nat) (r : Run) :
    (lift e n c r).places = r.places.map fun p => (c / e :: p.1, n * (c % e) + p.2) := by
  simp only [places, lift, List.range'_eq_map_range, List.map_map]
  apply List.map_congr_left
  intro i _
  simp [Nat.add_assoc]

theorem fits_lift {e c : Nat} {chunk : List Nat} {r : Run} (he : e ≠ 0) (h : Fits chunk r) :
    Fits (e :: chunk) (lift e chunk.prod c r) := by
  have hc : c % e + 1 ≤ e := Nat.mod_lt _ (Nat.pos_of_ne_zero he)
  have hle := Nat.mul_le_mul_left chunk.prod hc
  rw [Nat.mul_add] at hle
  obtain ⟨h₁, h₂⟩ := h
  refine ⟨h₁, ?_⟩
  rw [List.prod_cons, Nat.mul_comm e]
  simp only [lift]
  omega

theorem under_eq_ok {e c : Nat} {chunk : List Nat} {r : Run} (he : e ≠ 0)
    (hp : (e :: chunk).prod < 2 ^ 64) (h : Fits chunk r) :
    under e chunk.prod c r = .ok (lift e chunk.prod c r) := by
  have hfits := (fits_lift (c := c) he h).2
  simp only [lift] at hfits
  have hcomm : c % e * chunk.prod = chunk.prod * (c % e) := Nat.mul_comm _ _
  rw [under, Word.div_eq_ok he, Outcome.ok_bind, Word.mod_eq_ok he, Outcome.ok_bind,
    Word.mul_eq_ok (by omega), Outcome.ok_bind, Word.add_eq_ok (by omega), Outcome.ok_bind, hcomm]
  rfl

/-! ## Rows and boxes -/

/-- The runs of a row from `pos` on. Each ends where its chunk ends, or the row. -/
inductive Cut (e stop : Nat) : Nat → List Run → Prop
  | done {pos : Nat} (hpos : stop ≤ pos) : Cut e stop pos []
  | run {pos : Nat} {runs : List Run} (hpos : pos < stop) (rest : Cut e stop (min ((pos / e + 1) * e) stop) runs) :
      Cut e stop pos (⟨[pos / e], pos % e, min ((pos / e + 1) * e) stop - pos⟩ :: runs)

/-- The runs of a box: those of a row, or those of the faster dimensions under every coordinate of the slowest one. -/
inductive Box : List Nat → List Nat → List Nat → List Run → Prop
  | point : Box [] [] [] [⟨[], 0, 1⟩]
  | row {start count e : Nat} {runs : List Run} (he : e ≠ 0) (word : start + count < 2 ^ 64)
      (cut : Cut e (start + count) start runs) : Box [start] [count] [e] runs
  | rows {start count e : Nat} {starts counts chunk : List Nat} {runs : List Run} (he : e ≠ 0)
      (word : start + count < 2 ^ 64) (hne : chunk ≠ []) (inner : Box starts counts chunk runs) :
      Box (start :: starts) (count :: counts) (e :: chunk)
        ((List.range' start count).flatMap fun c => runs.map (lift e chunk.prod c))

theorem lt_chunkEnd {e : Nat} (he : e ≠ 0) (pos : Nat) :
    (pos / e + 1) * e = e * (pos / e) + e ∧ e * (pos / e) + pos % e = pos ∧ pos % e < e :=
  ⟨by rw [Nat.add_mul, Nat.mul_comm, Nat.one_mul], Nat.div_add_mod pos e, Nat.mod_lt _ (Nat.pos_of_ne_zero he)⟩

section
variable {e stop pos : Nat} {runs : List Run} (he : e ≠ 0)
include he

theorem Cut.fits (h : Cut e stop pos runs) : ∀ r ∈ runs, Fits [e] r := by
  induction h with
  | done => nofun
  | @run pos runs hpos rest ih =>
    have := lt_chunkEnd he pos
    rw [List.forall_mem_cons]
    refine ⟨?_, ih⟩
    simp only [Fits, List.prod_singleton]
    omega

theorem Cut.places_eq (h : Cut e stop pos runs) :
    runs.flatMap places = (List.range' pos (stop - pos)).map fun c => place [e] [c] := by
  induction h with
  | done hpos => rw [Nat.sub_eq_zero_of_le hpos]; rfl
  | @run pos runs hpos rest ih =>
    have := lt_chunkEnd he pos
    have hsplit : List.range' pos (stop - pos) = List.range' pos (min ((pos / e + 1) * e) stop - pos) ++
        List.range' (min ((pos / e + 1) * e) stop) (stop - min ((pos / e + 1) * e) stop) := by
      conv_rhs => rw [show min ((pos / e + 1) * e) stop = pos + (min ((pos / e + 1) * e) stop - pos) by omega]
      rw [Nat.add_sub_cancel_left, List.range'_append_1]
      congr 1
      omega
    rw [List.flatMap_cons, ih, places_row (by omega), hsplit, List.map_append]

theorem cut_eq_ok (hstop : stop < 2 ^ 64) (fuel pos : Nat) (hf : stop ≤ pos + fuel) :
    ∃ runs, cut e 1 stop fuel pos = .ok runs ∧ Cut e stop pos runs := by
  induction fuel generalizing pos with
  | zero => exact ⟨[], by rw [cut, if_neg (by omega)], .done hf⟩
  | succ fuel ih =>
    by_cases hlt : pos < stop
    · have := lt_chunkEnd he pos
      have hkey : pos / e ≤ pos := Nat.div_le_self _ _
      -- a chunk that ends beyond the words ends no earlier than the row
      have hsat : min (Word.satMul (pos / e + 1) e) stop = min ((pos / e + 1) * e) stop := by
        rw [Word.satMul, Word.last, Word.bound]
        omega
      have hnext : pos + (min ((pos / e + 1) * e) stop - pos) = min ((pos / e + 1) * e) stop := by omega
      obtain ⟨runs, hrun, hcut⟩ := ih (min ((pos / e + 1) * e) stop) (by omega)
      refine ⟨_, ?_, .run hlt hcut⟩
      rw [cut, if_pos hlt, Word.div_eq_ok he, Outcome.ok_bind, Word.add_eq_ok (by omega), Outcome.ok_bind]
      dsimp only
      rw [hsat, Word.sub_eq_ok (by omega), Outcome.ok_bind, Word.mod_eq_ok he, Outcome.ok_bind,
        Word.mul_eq_ok (by omega), Outcome.ok_bind, Word.add_eq_ok (by omega), Outcome.ok_bind, hnext, hrun,
        Nat.mul_one]
      rfl
    · exact ⟨[], by rw [cut, if_neg hlt], .done (Nat.le_of_not_lt hlt)⟩

end

section
variable {starts counts chunk : List Nat} {runs : List Run} (h : Box starts counts chunk runs)
include h

theorem Box.fits : ∀ r ∈ runs, Fits chunk r := by
  induction h with
  | point => simp [Fits]
  | row he _ hcut => exact hcut.fits he
  | rows he _ _ _ ih =>
    intro r hr
    obtain ⟨c, _, hr⟩ := List.mem_flatMap.mp hr
    obtain ⟨r', hr', rfl⟩ := List.mem_map.mp hr
    exact fits_lift he (ih r' hr')

theorem Box.places_eq : runs.flatMap places = (coordsOf starts counts).map (place chunk) := by
  induction h with
  | point => rfl
  | row he _ hcut =>
    rw [hcut.places_eq he, Nat.add_sub_cancel_left]
    simp [coordsOf, ← List.map_eq_flatMap]
  | @rows start count e starts counts chunk runs he word hne inner ih =>
    rw [coordsOf, List.flatMap_assoc, List.map_flatMap]
    congr 1
    funext c
    have hlift : (fun r => (lift e chunk.prod c r).places) =
        fun r => r.places.map fun p => (c / e :: p.1, chunk.prod * (c % e) + p.2) :=
      funext fun r => places_lift e _ c r
    rw [List.flatMap_map, hlift, ← List.map_flatMap, ih, List.map_map, List.map_map]
    rfl

end

theorem ofBox_eq_ok : ∀ {starts counts dims chunk : List Nat}, Inside starts counts dims →
    chunk.length = starts.length → 0 ∉ chunk → chunk.prod < 2 ^ 64 →
    ∃ runs, ofBox starts counts chunk (Shape.stridesOf chunk) = .ok runs ∧ Box starts counts chunk runs
  | [], [], [], [], .nil, _, _, _ => ⟨_, rfl, .point⟩
  | [start], [count], [_], [e], .cons hw _ .nil, _, h0, _ => by
    have he : e ≠ 0 := fun h => h0 (by simp [h])
    obtain ⟨runs, hrun, hcut⟩ := cut_eq_ok he hw count start (Nat.le_refl _)
    refine ⟨runs, ?_, .row he hw hcut⟩
    simp only [ofBox, Shape.stridesOf, List.prod_nil, Word.add_eq_ok hw, Outcome.ok_bind, hrun]
  | start :: s :: starts, count :: c :: counts, _ :: d :: dims, e :: e' :: chunk, .cons hw _ h, hl, h0, hp => by
    obtain ⟨he, hes⟩ := List.ne_and_not_mem_of_not_mem_cons h0
    have hprod : 0 < (e' :: chunk).prod := Nat.pos_of_ne_zero (List.prod_ne_zero hes)
    have hle : (e' :: chunk).prod ≤ (e :: e' :: chunk).prod := Nat.le_mul_of_pos_left _ (by omega)
    obtain ⟨inner, hrun, hbox⟩ := ofBox_eq_ok h (by simpa using hl) hes (by omega)
    have hrows : ∀ i ∈ List.range' start count,
        inner.mapM (under e (e' :: chunk).prod i) = .ok (inner.map (lift e (e' :: chunk).prod i)) := by
      intro i _
      apply Outcome.mapM_eq_ok
      intro r hr
      exact under_eq_ok (Ne.symm he) hp (hbox.fits r hr)
    refine ⟨_, ?_, .rows (Ne.symm he) hw (List.cons_ne_nil _ _) hbox⟩
    rw [Shape.stridesOf, ofBox]
    · rw [Word.add_eq_ok hw, Outcome.ok_bind, hrun, Outcome.ok_bind, Outcome.mapM_eq_ok hrows, List.flatMap_def]
      rfl
    · simp

end Run

section
variable {slab : Slab} {dims chunk : List Nat} (hin : Inside slab.starts slab.counts dims)
  (hl : chunk.length = slab.starts.length) (h0 : 0 ∉ chunk) (hp : chunk.prod < 2 ^ 64)
include hin hl h0 hp

theorem Slab.runs_box (hs : slab.size ≠ 0) :
    ∃ runs, slab.runs chunk = .ok runs ∧ Run.Box slab.starts slab.counts chunk runs := by
  obtain ⟨runs, hrun, hbox⟩ := Run.ofBox_eq_ok hin hl h0 hp
  refine ⟨runs, ?_, hbox⟩
  rw [Slab.runs, if_neg hs, Shape.ofDims_of_prod h0 hp]
  exact hrun

theorem Slab.runs_eq_ok :
    ∃ runs, slab.runs chunk = .ok runs ∧ runs.flatMap Run.places = slab.cells.map (place chunk) ∧
      ∀ r ∈ runs, r.Fits chunk := by
  by_cases hs : slab.size = 0
  · rw [Slab.runs, Slab.cells, if_pos hs, if_pos hs]
    exact ⟨[], rfl, rfl, nofun⟩
  · obtain ⟨runs, hrun, hbox⟩ := Slab.runs_box hin hl h0 hp hs
    rw [Slab.cells, if_neg hs]
    exact ⟨runs, hrun, hbox.places_eq, hbox.fits⟩

end

end Ragged

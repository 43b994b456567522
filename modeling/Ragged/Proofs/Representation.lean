import Ragged.Proofs.Allocation
import Ragged.Proofs.Partition

/-!
# What a store keeps to

`WellFormed` is the invariant of stores: chunks that take room have all their cells, each of them starts inside the
shape, and cells outside the shape are blank. Appended values are written to such cells before the shape grows over
them. Every call restores the invariant, also if it is refused, and so no call ever reaches outside a chunk.
-/

namespace Ragged

namespace Store

variable {α : Type} [Inhabited α]

/-- What holds between any two calls. -/
structure WellFormed (s : Store α) : Prop where
  rank : s.chunkShape.length = s.shape.rank
  positive : 0 ∉ s.chunkShape
  chunkLen : s.chunkLen = s.chunkShape.prod
  word : s.chunkLen < 2 ^ 64
  distinct : s.keys.Nodup
  filled : ∀ chunk ∈ s.chunks, chunk.2.size = s.chunkLen
  /-- Every chunk that takes room starts inside the shape. -/
  begun : ∀ key ∈ s.keys, key.length = s.shape.rank ∧
    List.Forall₂ (· < ·) (List.zipWith (· * ·) key s.chunkShape) s.shape.dims
  /-- A cell whose coordinate lies outside the shape has the value of a cell that was never written. -/
  blank : ∀ chunk ∈ s.chunks, ∀ i, i < s.chunkLen → ∃ coord, coordOf s.chunkShape chunk.1 i = .ok coord ∧
    (¬ s.shape.contains coord → chunk.2[i]? = some default)

/-- A store as a container makes it, and what calls make of it. Values are appended only to a store of one
dimension. -/
inductive Reachable : Store α → Prop
  | new {path : Path} {s : Store α} (h : Dataset.New ⟨path, s⟩) : Reachable s
  | write {s : Store α} (h : Reachable s) {slab : Slab} (hs : slab.Sized) (values : List α) :
      Reachable (writeInPlace slab values s).2
  | append {s : Store α} (h : Reachable s) (hlin : s.shape.rank = 1) (values : List α) :
      Reachable (appendInPlace values s).2

/-! ## Elements inside the shape -/

/-- The invariant in terms of coordinates: every chunk that takes room holds one of the shape, and at all others there
are default values. -/
structure Confined (s : Store α) : Prop where
  sound : s.Sound
  extent_lt : ∀ n ∈ s.shape.dims, n < 2 ^ 64
  nodup : s.keys.Nodup
  reached : ∀ key ∈ s.keys, ∃ c, List.Forall₂ (· < ·) c s.shape.dims ∧ List.zipWith (· / ·) c s.chunkShape = key
  blank : ∀ c, c.length = s.chunkShape.length → ¬ List.Forall₂ (· < ·) c s.shape.dims → s.value c = default

theorem confined_new {path : Path} {s : Store α} (h : Dataset.New ⟨path, s⟩) : s.Confined where
  sound := h.shows.sound
  extent_lt := h.extent_lt
  nodup := h.keys_eq ▸ List.nodup_nil
  reached _ hkey := absurd (h.keys_eq ▸ hkey) List.not_mem_nil
  blank c hc _ := h.shows.value c hc

theorem chunk_start_lt {c dims chunk : List Nat} (hc : List.Forall₂ (· < ·) c dims) (hl : chunk.length = dims.length) :
    List.Forall₂ (· < ·) (List.zipWith (· * ·) (List.zipWith (· / ·) c chunk) chunk) dims := by
  induction hc generalizing chunk with
  | nil =>
    obtain rfl := List.eq_nil_of_length_eq_zero hl
    exact .nil
  | @cons i d c dims hi _ ih =>
    obtain ⟨e, chunk, rfl⟩ := List.exists_cons_of_length_eq_add_one hl
    exact .cons (Nat.lt_of_le_of_lt (Nat.div_mul_le_self i e) hi) (ih (by simpa using hl))

section
variable {s : Store α} (h : s.Confined)
include h

theorem Confined.length_key {key : List Nat} (hkey : key ∈ s.keys) : key.length = s.chunkShape.length := by
  obtain ⟨c, hc, rfl⟩ := h.reached key hkey
  rw [List.length_zipWith, hc.length_eq, h.sound.rank, Nat.min_self]

theorem Confined.wellFormed : s.WellFormed where
  rank := h.sound.rank
  positive := h.sound.positive
  chunkLen := h.sound.chunkLen
  word := h.sound.chunkLen ▸ h.sound.words
  distinct := h.nodup
  filled _ hchunk := h.sound.filled _ _ (lookup_of_mem h.nodup hchunk)
  begun key hkey := by
    refine ⟨(h.length_key hkey).trans h.sound.rank, ?_⟩
    obtain ⟨c, hc, rfl⟩ := h.reached key hkey
    exact chunk_start_lt hc h.sound.rank
  blank := by
    rintro ⟨key, cells⟩ hchunk i hi
    have hlookup := lookup_of_mem h.nodup hchunk
    have hsize : i < cells.size := by rwa [h.sound.filled key cells hlookup]
    -- the element at the coordinate of the cell is what the cell holds
    obtain ⟨c, hcoord, hl, hplace⟩ :=
      exists_coordOf (h.length_key (List.mem_map_of_mem hchunk)) (h.sound.chunkLen ▸ hi)
    refine ⟨c, hcoord, fun hout => ?_⟩
    have hvalue := h.blank c hl (mt Shape.contains_iff.mpr hout)
    rw [value, hplace, cell, hlookup] at hvalue
    simpa [hsize] using hvalue

/-! ## Calls -/

theorem Confined.writeWithin {shape : Shape} (hrank : shape.dims.length = s.chunkShape.length)
    (hwords : ∀ n ∈ shape.dims, n < 2 ^ 64)
    (haround : ∀ c, List.Forall₂ (· < ·) c s.shape.dims → List.Forall₂ (· < ·) c shape.dims)
    {slab : Slab} (hs : slab.Sized) {values : List α} {s' : Store α} (hw : s.writeWithin shape slab values = .ok s')
    (hsound : Sound { s' with shape }) : Confined { s' with shape } := by
  obtain ⟨hc, hv, -⟩ := of_writeWithin hw
  obtain ⟨chunks, hsame, -, hvalue⟩ := h.sound.writeWithin_eq_ok hrank hs hc hv
  obtain ⟨-, -, -, hinside, hallocates⟩ := h.sound.writeWithin_wrote hrank hs hw
  obtain rfl := Outcome.ok.inj (hw.symm.trans hsame)
  refine ⟨hsound, hwords, hallocates.nodup h.nodup, ?_, ?_⟩
  · intro key hkey
    rcases (hallocates.mem key).mp hkey with hold | ⟨c, hmem, hchunk⟩
    · obtain ⟨c, hlt, hchunk⟩ := h.reached key hold
      exact ⟨c, haround c hlt, hchunk⟩
    · exact ⟨c, hinside c hmem, hchunk⟩
  · intro c hl hout
    have hnew : c ∉ slab.cells := fun hmem => hout (hinside c hmem)
    calc value { s with chunks } c = ((slab.cells.zip values).lookup c).getD (s.value c) := hvalue c hl
      _ = s.value c := by rw [lookup_zip_eq_none hnew, Option.getD_none]
      _ = default := h.blank c hl (mt (haround c) hout)

theorem Confined.write {slab : Slab} (hs : slab.Sized) {values : List α} {s' : Store α}
    (hw : s.write slab values = .ok s') : s'.Confined := by
  obtain ⟨hc, hv, -⟩ := of_writeWithin hw
  obtain ⟨chunks, hsame, hsound, -⟩ := h.sound.writeWithin_eq_ok h.sound.rank.symm hs hc hv
  obtain rfl := Outcome.ok.inj (hw.symm.trans hsame)
  exact h.writeWithin h.sound.rank.symm h.extent_lt (fun _ => id) hs hw hsound

theorem Confined.append (hlin : s.shape.rank = 1) {values : List α} {s' : Store α} (hw : s.append values = .ok s') :
    s'.Confined := by
  obtain ⟨hv, written, hwritten, rfl⟩ := of_append hw
  obtain ⟨chunks, hsame, hsound, -⟩ := h.sound.append_eq_ok hlin hv
  rw [← Outcome.ok.inj (hw.symm.trans hsame)] at hsound
  have hrank : [s.shape.size + values.length].length = s.chunkShape.length := (h.sound.rank.trans hlin).symm
  have hwords : ∀ n ∈ [s.shape.size + values.length], n < 2 ^ 64 := List.forall_mem_singleton.mpr hv
  refine h.writeWithin hrank hwords ?_ (Slab.range_sized _ _) hwritten hsound
  intro c hc
  rw [h.sound.dims_eq hlin] at hc
  obtain ⟨i, rest, hi, hrest, rfl⟩ := List.forall₂_cons_right_iff.mp hc
  exact .cons (Nat.lt_add_right _ hi) hrest

end

/-- A call succeeds and keeps to the invariant, or it is refused and leaves the store as it was. -/
inductive Settles (call : Action (Store α) Unit) (s : Store α) : Prop
  | done {s' : Store α} (h : call s = (.ok (), s')) (hs : s'.Confined) : Settles call s
  | refused {e : Error} (h : call s = (.fail e, s)) : Settles call s

theorem Settles.confined {call : Action (Store α) Unit} {s : Store α} (h : Settles call s) (hs : s.Confined) :
    (call s).2.Confined := by
  cases h with
  | done h hs' => rwa [h]
  | refused h => rwa [h]

theorem Settles.ne_trap {call : Action (Store α) Unit} {s : Store α} (h : Settles call s) : (call s).1 ≠ .trap := by
  cases h with
  | done h => rw [h]; nofun
  | refused h => rw [h]; nofun

section
variable {s : Store α} (h : s.Confined)
include h

theorem Confined.writeInPlace {slab : Slab} (hs : slab.Sized) (values : List α) :
    Settles (writeInPlace slab values) s := by
  have hstep : Store.writeInPlace slab values s = Action.step (fun s => s.write slab values) s :=
    h.sound.writeWithinInPlace_eq h.sound.rank.symm hs values
  rcases h.sound.write_cases h.extent_lt hs values with ⟨-, chunks, hw⟩ | ⟨-, e, hw⟩
  · exact .done (hstep.trans (Action.step_of_ok hw)) (h.write hs hw)
  · exact .refused (hstep.trans (Action.step_of_fail hw))

theorem Confined.appendInPlace (hlin : s.shape.rank = 1) (values : List α) : Settles (appendInPlace values) s := by
  have hstep := h.sound.appendInPlace_eq hlin values
  by_cases hv : s.shape.size + values.length < 2 ^ 64
  · obtain ⟨chunks, hw, -⟩ := h.sound.append_eq_ok hlin hv
    exact .done (hstep.trans (Action.step_of_ok hw)) (h.append hlin hw)
  · exact .refused (hstep.trans (Action.step_of_fail (append_eq_fail hv)))

theorem Confined.read_ne_trap {slab : Slab} (hs : slab.Sized) : s.read slab ≠ .trap := by
  rw [h.sound.read_eq hs.rank]
  exact Outcome.bind_ne_trap (Slab.checkWithin_ne_trap slab s.shape) nofun

end

/-! ## Histories -/

theorem Reachable.confined {s : Store α} (h : s.Reachable) : s.Confined := by
  induction h with
  | new h => exact confined_new h
  | write _ hs values ih => exact (ih.writeInPlace hs values).confined ih
  | append _ hlin values ih => exact (ih.appendInPlace hlin values).confined ih

theorem Reachable.performInPlace {d : Dataset α} (h : d.store.Reachable) {op : Op α} (hs : op.Sized) :
    (Dataset.performInPlace op d).2.store.Reachable := by
  cases op with
  | read slab => exact h
  | write slab values =>
    rw [Dataset.performInPlace, Action.snd_bind_pure]
    exact h.write hs values
  | append values =>
    rw [Dataset.performInPlace, Action.snd_bind_pure, Dataset.appendInPlace, Action.view_bind, Action.view_bind,
      Outcome.require]
    by_cases he : d.store.extensible = true
    · rw [if_pos he]
      exact h.append (h.confined.sound.linear he) values
    · rw [if_neg he]
      exact h

/-- Every store that calls make of a new one is well-formed, and neither reading nor writing ever reaches outside a
chunk or the values that are given. All histories of calls on a dataset lead to such stores. -/
theorem representation_kept :
    (∀ s : Store α, s.Reachable → s.WellFormed ∧
      (∀ slab : Slab, slab.Sized → s.read slab ≠ .trap ∧ ∀ values, (writeInPlace slab values s).1 ≠ .trap) ∧
      (s.shape.rank = 1 → ∀ values, (appendInPlace values s).1 ≠ .trap)) ∧
    ∀ (d : Dataset α) (ops : List (Op α)), d.New → (∀ op ∈ ops, op.Sized) →
      (Action.each Dataset.perform ops d).2.store.Reachable ∧
      Action.each Dataset.performInPlace ops d = Action.each Dataset.perform ops d := by
  constructor
  · intro s h
    refine ⟨h.confined.wellFormed, fun slab hs => ⟨h.confined.read_ne_trap hs, fun values => ?_⟩, fun hlin values => ?_⟩
    · exact (h.confined.writeInPlace hs values).ne_trap
    · exact (h.confined.appendInPlace hlin values).ne_trap
  · intro d ops hd hs
    have hsame := hd.reached.each_performInPlace hs
    refine ⟨?_, hsame⟩
    rw [← hsame]
    exact Action.each_keeps_of_mem (I := fun d : Dataset α => d.store.Reachable)
      (fun op hop _ h => h.performInPlace (hs op hop)) (.new hd)

/-- Values are appended across the ends of chunks, with a write that is refused in between. The last cell of the last
chunk lies outside the shape. -/
theorem representation_kept_growing :
    let calls : List (Op Nat) := [.append [1, 2, 3], .write (Slab.range 2 2) [7, 8], .append [4, 5]]
    ∃ d : Dataset Nat, d.New ∧
      let s := (Action.each Dataset.perform calls d).2.store
      s.shape.dims = [5] ∧ s.chunks = [([0], #[1, 2]), ([1], #[3, 4]), ([2], #[5, 0])] ∧ s.WellFormed ∧
      s.read (Slab.range 3 2) ≠ .trap ∧ (writeInPlace (Slab.range 3 3) [7, 8, 9] s).1 ≠ .trap ∧
      (appendInPlace [6, 7] s).1 ≠ .trap := by
  intro calls
  have hd : Dataset.New (α := Nat) ⟨[], ⟨Shape.rowMajor [0], .chunked [2] [], true, [2], 2, []⟩⟩ :=
    .uncompressed [] (show (2 : UInt64) ≠ 0 by decide)
  have hs : ∀ op ∈ calls, op.Sized := by
    simp only [calls, List.forall_mem_cons, List.not_mem_nil, false_implies, implies_true, and_true]
    exact ⟨trivial, Slab.range_sized 2 2, trivial⟩
  obtain ⟨hkept, hcalls⟩ := representation_kept (α := Nat)
  obtain ⟨hwell, hslabs, hgrows⟩ := hkept _ (hcalls _ calls hd hs).1
  exact ⟨_, hd, by decide +kernel, by decide +kernel, hwell, (hslabs _ (Slab.range_sized 3 2)).1,
    (hslabs _ (Slab.range_sized 3 3)).2 _, hgrows (by decide +kernel) _⟩

end Store

end Ragged

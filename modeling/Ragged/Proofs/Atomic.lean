import Ragged.Proofs.Growing
import Ragged.Proofs.InPlace

/-!
# Calls that change all or nothing

A dataset in use reads every slab inside its shape and no other, writes such a slab if it is given a value for every
coordinate, and grows if it may and its length stays a word. A call that is refused leaves shape, elements and chunks
as they were, also where runs are written in place.
-/

namespace Ragged

namespace Slab

/-- A slab of the rank of a shape that ends nowhere beyond the extents, whatever the sums are. -/
def Within (slab : Slab) (s : Shape) : Prop :=
  slab.rank = s.rank ∧ ∀ i, i < s.rank → slab.starts.getD i 0 + slab.counts.getD i 0 ≤ s.dims.getD i 0

instance (slab : Slab) (s : Shape) : Decidable (slab.Within s) :=
  inferInstanceAs (Decidable (slab.rank = s.rank ∧
    ∀ i, i < s.rank → slab.starts.getD i 0 + slab.counts.getD i 0 ≤ s.dims.getD i 0))

theorem inside_iff {starts counts dims : List Nat} (hl : starts.length = counts.length)
    (hw : ∀ d ∈ dims, d < 2 ^ 64) :
    Inside starts counts dims ↔ starts.length = dims.length ∧
      ∀ i, i < dims.length → starts.getD i 0 + counts.getD i 0 ≤ dims.getD i 0 := by
  induction dims generalizing starts counts with
  | nil =>
    constructor
    · rintro ⟨⟩
      simp
    · rintro ⟨hs, -⟩
      obtain rfl := List.eq_nil_of_length_eq_zero hs
      obtain rfl := List.eq_nil_of_length_eq_zero hl.symm
      exact .nil
  | cons d dims ih =>
    rw [List.forall_mem_cons] at hw
    constructor
    · intro h
      obtain _ | ⟨_, hb, h⟩ := h
      obtain ⟨hs, hall⟩ := (ih (by simpa using hl) hw.2).mp h
      refine ⟨by simp [hs], fun i hi => ?_⟩
      cases i with
      | zero => exact hb
      | succ i => exact hall i (Nat.lt_of_succ_lt_succ hi)
    · rintro ⟨hs, hall⟩
      obtain ⟨start, starts, rfl⟩ := List.exists_cons_of_length_eq_add_one hs
      obtain ⟨count, counts, rfl⟩ := List.exists_cons_of_length_eq_add_one hl.symm
      -- the extent is a word, so the sum is one as well
      have hb : start + count ≤ d := hall 0 (Nat.zero_lt_succ _)
      refine .cons (by omega) hb ((ih (by simpa using hl) hw.2).mpr ⟨by simpa using hs, fun i hi => ?_⟩)
      exact hall (i + 1) (Nat.succ_lt_succ hi)

theorem checkWithin_iff {slab : Slab} (hs : slab.starts.length = slab.counts.length) {s : Shape}
    (hw : ∀ d ∈ s.dims, d < 2 ^ 64) : slab.checkWithin s = .ok () ↔ slab.Within s := by
  rw [checkWithin_eq_ok hs, inside_iff hs hw]
  rfl

theorem checkDims_ne_trap (slab : Slab) (starts counts dims : List Nat) :
    checkDims slab starts counts dims ≠ .trap := by
  fun_induction checkDims slab starts counts dims with
  | case1 => simp
  | case2 _ _ _ _ _ _ _ _ _ ih => exact ih
  | case3 => simp
  | case4 => simp

theorem checkWithin_ne_trap (slab : Slab) (s : Shape) : slab.checkWithin s ≠ .trap := by
  unfold checkWithin
  split
  · exact checkDims_ne_trap slab _ _ _
  · simp

theorem checkWithin_cases {slab : Slab} (hs : slab.starts.length = slab.counts.length) {s : Shape}
    (hw : ∀ d ∈ s.dims, d < 2 ^ 64) :
    (slab.Within s ∧ slab.checkWithin s = .ok ()) ∨ (¬ slab.Within s ∧ ∃ e, slab.checkWithin s = .fail e) := by
  rw [← checkWithin_iff hs hw]
  have htrap := checkWithin_ne_trap slab s
  cases hc : slab.checkWithin s with
  | ok u => exact .inl ⟨rfl, rfl⟩
  | fail e => exact .inr ⟨by simp, e, rfl⟩
  | trap => exact absurd hc htrap

end Slab

namespace Store

variable {α : Type} [Inhabited α] {s : Store α}

theorem Sound.write_cases (h : s.Sound) (hw : ∀ n ∈ s.shape.dims, n < 2 ^ 64) {slab : Slab} (hs : slab.Sized)
    (values : List α) :
    ((slab.Within s.shape ∧ values.length = slab.size) ∧ ∃ chunks, s.write slab values = .ok { s with chunks }) ∨
      (¬ (slab.Within s.shape ∧ values.length = slab.size) ∧ ∃ e, s.write slab values = .fail e) := by
  rcases Slab.checkWithin_cases hs.rank hw with ⟨hin, hc⟩ | ⟨hout, e, hc⟩
  · by_cases hv : values.length = slab.size
    · obtain ⟨chunks, hwrite, -⟩ := h.writeWithin_eq_ok h.rank.symm hs hc hv.symm
      exact .inl ⟨⟨hin, hv⟩, chunks, hwrite⟩
    · exact .inr ⟨fun hboth => hv hboth.2, _, writeWithin_of_miscount hc (Ne.symm hv)⟩
  · exact .inr ⟨fun hboth => hout hboth.1, e, by rw [write, writeWithin, hc, Outcome.fail_bind]⟩

end Store

namespace Dataset

variable {α : Type}

/-- A call that succeeds exactly under a condition, and is refused otherwise and leaves the dataset as it was. -/
structure AllOrNothing (call : Action (Dataset α) Unit) (d : Dataset α) (condition : Prop) : Prop where
  ok_iff : (call d).1 = .ok () ↔ condition
  refused : (call d).1 ≠ .ok () → ∃ e, call d = (.fail e, d)

theorem allOrNothing_of_cases {call : Action (Dataset α) Unit} {d : Dataset α} {condition : Prop}
    (h : (condition ∧ ∃ d', call d = (.ok (), d')) ∨ (¬ condition ∧ ∃ e, call d = (.fail e, d))) :
    AllOrNothing call d condition := by
  rcases h with ⟨hc, d', h⟩ | ⟨hc, e, h⟩
  · exact ⟨iff_of_true (by rw [h]) hc, fun hne => absurd (by rw [h]) hne⟩
  · exact ⟨iff_of_false (by simp [h]) hc, fun _ => ⟨e, h⟩⟩

variable [Inhabited α] {d : Dataset α}

theorem write_of_ok {slab : Slab} {values : List α} {store : Store α} (h : d.store.write slab values = .ok store) :
    write slab values d = (.ok (), { d with store }) := by
  apply Action.step_of_ok
  rw [h]
  rfl

theorem write_of_fail {slab : Slab} {values : List α} {e : Error} (h : d.store.write slab values = .fail e) :
    write slab values d = (.fail (e.withContext s!"writing {slab.render} to '{d.path.render}'"), d) := by
  apply Action.step_of_fail
  rw [h]
  rfl

theorem append_of_ok {values : List α} {store : Store α} (he : d.store.extensible = true)
    (h : d.store.append values = .ok store) : append values d = (.ok (), { d with store }) := by
  apply Action.step_of_ok
  rw [if_pos he, h]
  rfl

theorem append_of_fixed {values : List α} (he : ¬ d.store.extensible = true) :
    append values d = (.fail (.invalidArgument s!"dataset '{d.path.render}' is not extensible"), d) := by
  apply Action.step_of_fail
  exact if_neg he

section
variable (h : d.Reached)
include h

theorem Reached.read_cases {slab : Slab} (hs : slab.Sized) :
    (slab.Within d.shape ∧ ∃ values, d.read slab = .ok values) ∨
      (¬ slab.Within d.shape ∧ ∃ e, d.read slab = .fail e) := by
  unfold read
  rw [h.sound.read_eq hs.rank]
  rcases Slab.checkWithin_cases hs.rank h.extent_lt with ⟨hin, hc⟩ | ⟨hout, e, hc⟩
  · refine .inl ⟨hin, slab.cells.map d.store.value, ?_⟩
    rw [show slab.checkWithin d.store.shape = .ok () from hc]
    rfl
  · refine .inr ⟨hout, e.withContext s!"reading {slab.render} from '{d.path.render}'", ?_⟩
    rw [show slab.checkWithin d.store.shape = .fail e from hc]
    rfl

theorem Reached.write_allOrNothing {slab : Slab} (hs : slab.Sized) (values : List α) :
    AllOrNothing (write slab values) d (slab.Within d.shape ∧ values.length = slab.size) := by
  apply allOrNothing_of_cases
  rcases h.sound.write_cases h.extent_lt hs values with ⟨hc, chunks, hw⟩ | ⟨hc, e, hw⟩
  · exact .inl ⟨hc, _, write_of_ok hw⟩
  · exact .inr ⟨hc, _, write_of_fail hw⟩

theorem Reached.shape_write {slab : Slab} (hs : slab.Sized) (values : List α) :
    (write slab values d).2.shape = d.shape := by
  rcases h.sound.write_cases h.extent_lt hs values with ⟨-, chunks, hw⟩ | ⟨-, e, hw⟩
  · rw [write_of_ok hw]
    rfl
  · rw [write_of_fail hw]

theorem Reached.append_cases (values : List α) :
    ((d.store.extensible = true ∧ d.size + values.length < 2 ^ 64) ∧
      ∃ d', append values d = (.ok (), d') ∧ d'.size = d.size + values.length ∧ d'.shape.dims = [d'.size]) ∨
    (¬ (d.store.extensible = true ∧ d.size + values.length < 2 ^ 64) ∧ ∃ e, append values d = (.fail e, d)) := by
  by_cases he : d.store.extensible = true
  · have hgrows : d.Grows := ⟨h.sound, he⟩
    by_cases hv : d.size + values.length < 2 ^ 64
    · obtain ⟨store, happend, hgrown, helements⟩ := hgrows.append_eq_ok hv
      have hsize := congrArg List.length helements
      rw [length_elements, List.length_append, length_elements] at hsize
      exact .inl ⟨⟨he, hv⟩, _, happend, hsize, hgrown.linear.dims⟩
    · exact .inr ⟨fun hboth => hv hboth.2, _, hgrows.append_eq_fail hv⟩
  · exact .inr ⟨fun hboth => he hboth.1, _, append_of_fixed he⟩

theorem Reached.append_allOrNothing (values : List α) :
    AllOrNothing (append values) d (d.store.extensible = true ∧ d.size + values.length < 2 ^ 64) := by
  apply allOrNothing_of_cases
  rcases h.append_cases values with ⟨hc, d', happend, -⟩ | hrefused
  · exact .inl ⟨hc, d', happend⟩
  · exact .inr hrefused

theorem Reached.size_append {values : List α} (hok : (append values d).1 = .ok ()) :
    (append values d).2.size = d.size + values.length ∧
      (append values d).2.shape.dims = [(append values d).2.size] := by
  rcases h.append_cases values with ⟨-, d', happend, hsize⟩ | ⟨-, e, hfail⟩
  · rw [happend]
    exact hsize
  · rw [hfail] at hok
    cases hok

end

/-! ## Calls on a dataset in use -/

/-- On a dataset in use a slab can be read if and only if it lies in the shape, and can be written if and only if there
is also a value for each of its coordinates, which leaves the shape as it is. Values can be appended if and only if the
dataset grows and its length stays a word, and then it is longer by their number. A call that does not succeed fails and
leaves all of the dataset as it was. Calls that write every run as soon as it is found do and answer the same, alone and
one after another. -/
theorem calls_all_or_nothing {d : Dataset α} (h : d.Reached) :
    (∀ slab : Slab, slab.Sized →
      ((∃ values, d.read slab = .ok values) ↔ slab.Within d.shape) ∧ d.read slab ≠ .trap ∧
      ∀ values,
        AllOrNothing (write slab values) d (slab.Within d.shape ∧ values.length = slab.size) ∧
        (write slab values d).2.shape = d.shape ∧
        writeInPlace slab values d = write slab values d) ∧
    (∀ values,
      AllOrNothing (append values) d (d.store.extensible = true ∧ d.size + values.length < 2 ^ 64) ∧
      ((append values d).1 = .ok () → (append values d).2.size = d.size + values.length ∧
        (append values d).2.shape.dims = [(append values d).2.size]) ∧
      appendInPlace values d = append values d) ∧
    ∀ ops : List (Op α), (∀ op ∈ ops, op.Sized) → Action.each performInPlace ops d = Action.each perform ops d := by
  refine ⟨fun slab hs => ⟨?_, ?_, fun values => ?_⟩, fun values => ?_, fun ops hs => h.each_performInPlace hs⟩
  · rcases h.read_cases hs with ⟨hin, values, hread⟩ | ⟨hout, e, hread⟩
    · exact iff_of_true ⟨values, hread⟩ hin
    · exact iff_of_false (by simp [hread]) hout
  · rcases h.read_cases hs with ⟨-, values, hread⟩ | ⟨-, e, hread⟩
    · simp [hread]
    · simp [hread]
  · exact ⟨h.write_allOrNothing hs values, h.shape_write hs values, writeInPlace_eq h.sound hs values⟩
  · exact ⟨h.append_allOrNothing values, h.size_append, appendInPlace_eq h.sound values⟩

theorem calls_all_or_nothing_growing :
    let d : Dataset Nat :=
      ⟨[], ⟨Shape.rowMajor [3], .chunked [2] [], true, [2], 2, [([0], #[1, 2]), ([1], #[3, 0])]⟩⟩
    d.Reached ∧ (∃ e, writeInPlace (Slab.range 3 3) [7, 8, 9] d = (.fail e, d)) ∧
      (writeInPlace (Slab.range 1 2) [7, 8] d).1 = .ok () ∧ (¬ ∃ values, d.read (Slab.range 3 1) = .ok values) ∧
      (appendInPlace [4, 5] d).1 = .ok () ∧ (append [4, 5] d).2.size = 5 := by
  intro d
  have hreached : d.Reached :=
    ⟨_, [.append [1, 2, 3]], .uncompressed [] (show (2 : UInt64) ≠ 0 by decide), by simp [Op.Sized], rfl⟩
  obtain ⟨hslabs, happends, -⟩ := calls_all_or_nothing hreached
  obtain ⟨-, -, hlate⟩ := hslabs (Slab.range 3 3) (Slab.range_sized 3 3)
  obtain ⟨-, -, hintime⟩ := hslabs (Slab.range 1 2) (Slab.range_sized 1 2)
  obtain ⟨hbeyond, -, -⟩ := hslabs (Slab.range 3 1) (Slab.range_sized 3 1)
  obtain ⟨hwrite, -, hplace⟩ := hlate [7, 8, 9]
  obtain ⟨hwrite', -, hplace'⟩ := hintime [7, 8]
  obtain ⟨happend, hsize, hplace''⟩ := happends [4, 5]
  have hgrown : (append [4, 5] d).1 = .ok () := happend.ok_iff.mpr (by decide)
  refine ⟨hreached, ?_, ?_, ?_, ?_, (hsize hgrown).1⟩
  · rw [hplace]
    apply hwrite.refused
    rw [ne_eq, hwrite.ok_iff]
    decide
  · rw [hplace']
    exact hwrite'.ok_iff.mpr (by decide)
  · rw [hbeyond]
    decide
  · rw [hplace'']
    exact hgrown

end Dataset

end Ragged

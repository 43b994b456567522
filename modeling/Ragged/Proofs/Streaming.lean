import Ragged.Proofs.Access
import Ragged.Proofs.Listing
import Ragged.Proofs.Reading

/-!
# Streaming

What the creation of a dataset checks is what the plans of its blocks need, and no act on it takes that away. So a
dataset can be walked in blocks at any time, whatever the budget is. Its pointers can always be read, and they can be
written for every span of its size whose offsets are words.
-/

namespace Ragged

variable {X : Type} [Elements X]

namespace Dataset

section
variable {d : Dataset Pointer} (hd : d.store.Sound)
include hd

theorem readPointers_eq_ok (o : ReadOptions) : readPointers o d.view = .ok d.listed := by
  apply forPointers_eq_ok hd (UInt64.toNat_lt o.elementBudget) (length_listed hd)
  intro c a hc ha
  rw [getElem?_listed d hc] at ha
  rw [Option.some.inj ha]

theorem writePointers_cases (o : WriteOptions) (span : HeapSpan) :
    (span.lengths.length = d.size ∧ span.stop < 2 ^ 64 ∧ ∃ chunks, writePointers o span d =
        (.ok (), { d with store := { d.store with chunks } })) ∨
      (¬ (span.lengths.length = d.size ∧ span.stop < 2 ^ 64) ∧ ∃ e, writePointers o span d = (.fail e, d)) := by
  obtain ⟨t, slabs, ht, hlist, -, -⟩ := Tiling.planned_blocks hd.shape hd.chunked (UInt64.toNat_lt o.elementBudget)
  by_cases hcount : span.lengths.length = d.size
  · obtain ⟨hstop, offsets, hoffsets⟩ | ⟨hstop, e, hoffsets⟩ :=
      Pointer.offsetsFrom_cases span.start span.lengths
    · have hlen := Pointer.length_offsetsFrom hoffsets
      obtain ⟨chunks, hok, -, -⟩ := writePointers_eq_ok hd o hoffsets (hlen.trans hcount) hcount
      exact .inl ⟨hcount, hstop, chunks, hok⟩
    · refine .inr ⟨fun h => hstop h.2, e, ?_⟩
      have hcheck : checkElementCount d.shape span.lengths.length = .ok () := Codec.checkCount_eq_ok _ hcount
      have hspan : span.offsets = .fail e := hoffsets
      rw [writePointers_of_planned ht hlist, hcheck, hspan]
      rfl
  · have hcheck : checkElementCount d.shape span.lengths.length = .fail _ := if_neg hcount
    refine .inr ⟨fun h => hcount h.1, ?_⟩
    rw [writePointers_of_planned ht hlist, hcheck]
    exact ⟨_, rfl⟩

end

end Dataset

/-! ## Containers in use -/

namespace Catalog

def InUse (c : Catalog X) : Prop := ∀ e ∈ c.entries, e.dataset.Reached

theorem InUse.perform {c : Catalog X} (hc : c.InUse) (call : Call X) : (perform call c).2.InUse := by
  have hcall := perform_cases call c
  generalize (Catalog.perform call c).1 = x, (Catalog.perform call c).2 = c' at hcall ⊢
  cases hcall with
  | refused e => exact hc
  | @created item hitem hv =>
    obtain ⟨rfl, -⟩ | ⟨t, store, rfl, -, hnew⟩ := item_cases hitem
    · exact hc
    · exact List.forall_mem_cons.mpr ⟨(hnew call.path).reached, hc⟩
  | opened => exact hc

theorem InUse.put {c : Catalog X} (hc : c.InUse) {t : ElementType X} {h : Handle t} {d : Dataset t.Carrier}
    (hd : c.dataset? h = some d) {op : Op t.Carrier} (hop : op.Sized) : (c.put (Dataset.perform op d).2).InUse := by
  have hreached : d.Reached := hc _ (List.mem_of_find?_eq_some (dataset?_eq_some.mp hd))
  intro e he
  obtain ⟨old, hold, rfl⟩ := List.mem_map.mp he
  by_cases hp : old.path = (Dataset.perform op d).2.path
  · rw [if_pos hp]
    exact hreached.perform op hop
  · rw [if_neg hp]
    exact hc old hold

end Catalog

namespace Session

theorem inUse_each {acts : List (Act X)} (hacts : ∀ act ∈ acts, act.Sized) :
    (Action.each byPath.perform acts ⟨.empty, []⟩).2.container.InUse := by
  have hstep : ∀ act ∈ acts, ∀ s : State (Catalog X) (AnyHandle X), s.container.InUse →
      (byPath.perform act s).2.container.InUse := by
    intro act hact s hs
    have hsized := hacts act hact
    have hchanged := changed act s
    generalize (byPath.perform act s).2.container = c at hchanged
    cases hchanged with
    | called call => exact hs.perform call
    | used hh hd => exact hs.put hd (hsized _)
    | kept => exact hs
  exact Action.each_keeps_of_mem hstep nofun

/-- Every dataset of a container, however it was created and used, can be walked in blocks with any budget. If it
holds pointers they are read, and they are written if and only if there is a length for each and the offsets are
words; if they are not, that is found before anything is written. -/
theorem datasets_streamed {acts : List (Act X)} (hacts : ∀ act ∈ acts, act.Sized) :
    ∀ e ∈ (Action.each byPath.perform acts ⟨.empty, []⟩).2.container.entries,
      (∀ budget : UInt64, ∃ tiling slabs,
        Tiling.planned e.dataset.shape.dims e.dataset.layout.chunk? budget.toNat = .ok tiling ∧
        tiling.toList = .ok slabs) ∧
      ∀ d : Dataset Pointer, e = ⟨.pointer, d⟩ →
        (∀ o : ReadOptions, readPointers o d.view = .ok d.listed) ∧
        ∀ (o : WriteOptions) (span : HeapSpan),
          ((writePointers o span d).1 = .ok () ↔ span.lengths.length = d.size ∧ span.stop < 2 ^ 64) ∧
          (writePointers o span d).1 ≠ .trap ∧
          (∀ x, (writePointers o span d).1 = .fail x → (writePointers o span d).2 = d) := by
  intro e he
  have hsound := (inUse_each hacts e he).sound
  refine ⟨fun budget => ?_, ?_⟩
  · obtain ⟨tiling, slabs, hplanned, hlist, -, -⟩ :=
      Tiling.planned_blocks hsound.shape hsound.chunked (UInt64.toNat_lt budget)
    exact ⟨tiling, slabs, hplanned, hlist⟩
  · rintro d rfl
    refine ⟨fun o => Dataset.readPointers_eq_ok hsound o, fun o span => ?_⟩
    obtain ⟨hcount, hstop, chunks, hok⟩ | ⟨hnot, x, hfail⟩ := Dataset.writePointers_cases hsound o span
    · rw [hok]
      exact ⟨⟨fun _ => ⟨hcount, hstop⟩, fun _ => rfl⟩, nofun, nofun⟩
    · rw [hfail]
      exact ⟨⟨nofun, fun h => absurd h hnot⟩, nofun, fun _ _ => rfl⟩

theorem datasets_streamed_growing :
    let acts : List (Act Empty) :=
      [.call (.createExtensible .pointer "p" (some 2) 0), .use 0 fun _ => .append (List.replicate 3 default)]
    ∃ d : Dataset Pointer,
      (⟨.pointer, d⟩ : Entry Empty) ∈ (Action.each byPath.perform acts ⟨.empty, []⟩).2.container.entries ∧ d.size = 3 ∧
      readPointers {} d.view = .ok d.listed ∧
      (writePointers {} ⟨5, [1, 2, 3]⟩ d).1 = .ok () ∧
      (writePointers {} ⟨5, [1, 2]⟩ d).1 ≠ .ok () ∧
      (writePointers {} ⟨5, [1, 2, UInt64.ofNat Word.last]⟩ d).1 ≠ .ok () := by
  intro acts
  have hacts : ∀ act ∈ acts, act.Sized := by
    simp only [acts, List.forall_mem_cons]
    exact ⟨trivial, fun _ => trivial, nofun⟩
  obtain ⟨d, hd, hsize⟩ : ∃ d : Dataset Pointer, (⟨.pointer, d⟩ : Entry Empty) ∈
      (Action.each byPath.perform acts ⟨.empty, []⟩).2.container.entries ∧ d.size = 3 :=
    ⟨_, List.mem_cons_self, rfl⟩
  obtain ⟨hread, hwrite⟩ := (datasets_streamed hacts _ hd).2 d rfl
  refine ⟨d, hd, hsize, hread _, ?_, ?_, ?_⟩
  · exact (hwrite _ _).1.mpr ⟨hsize.symm, by decide⟩
  · rw [Ne, (hwrite _ _).1, hsize]
    decide
  · rw [Ne, (hwrite _ _).1, hsize]
    decide

end Session

end Ragged

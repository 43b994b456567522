import Ragged.Proofs.RoundTrip

/-!
# Arrays written one after the other

The heap only grows, so what it held is there after any calls, whether they fail or not, and pointers keep naming
their contents. The pointers of the dataset change only when a call succeeds. Thus the array of the last call that
succeeded can be read until another one does.
-/

namespace Ragged

theorem Pointer.Names.mono {before after content : List UInt8} {p : Pointer} (h : p.Names before content)
    (hpre : before <+: after) : p.Names after content := by
  obtain ⟨rest, rfl⟩ := hpre
  have hinside := h.inside
  refine ⟨h.length, ?_, take_drop_append rest h.content⟩
  rw [List.length_append]
  omega

/-! ## Datasets that describe contents -/

/-- The pointers of a dataset name these contents, each the one with the number of its element. -/
structure Describes (d : Dataset Pointer) (heap : List UInt8) (contents : List (List UInt8)) : Prop where
  sound : d.store.Sound
  count : contents.length = d.size
  names : ∀ c content, List.Forall₂ (· < ·) c d.shape.dims →
    contents[dot (Shape.stridesOf d.shape.dims) c]? = some content → (d.store.value c).Names heap content

namespace Describes

variable {d : Dataset Pointer} {contents : List (List UInt8)}

theorem mono {before after : List UInt8} (h : Describes d before contents) (hpre : before <+: after) :
    Describes d after contents where
  sound := h.sound
  count := h.count
  names c content hc hi := (h.names c content hc hi).mono hpre

theorem readArray {heap : Dataset UInt8} (h : Describes d heap.elements contents) (hh : heap.Grows) {o : ReadOptions}
    (ho : o.trim = .keep) : readArray o d.view heap.view = .ok contents := by
  apply forPointers_eq_ok h.sound (UInt64.toNat_lt o.elementBudget) h.count
  intro c content hc hi
  exact resolve_eq_ok ho hh (h.names c content hc hi) _ _

theorem listed {heap : List UInt8} (h : Describes d heap contents) {i : Nat} {p : Pointer} {content : List UInt8}
    (hp : d.listed[i]? = some p) (hi : contents[i]? = some content) : p.Names heap content := by
  obtain ⟨c, hc, rfl, rfl⟩ := Dataset.exists_coord_of_listed h.sound hp
  exact h.names c content hc hi

end Describes

theorem ArrayEnded.describes {d d' : Dataset Pointer} {before after : List UInt8} {contents : List (List UInt8)}
    {x : Outcome Unit} (h : ArrayEnded d before contents x d' after) (hx : x = .ok ()) :
    Describes d' after contents := by
  cases h with
  | part hfail => exact absurd hx hfail
  | all hcount hlen hsound hvalue =>
    refine ⟨hsound, hcount, ?_⟩
    intro c content hc hi
    rw [hvalue c hc]
    exact Pointer.backToBack_names hlen hi

/-! ## Runs of calls -/

variable {σ : Type} {S : Sink σ} {heap : σ → Dataset UInt8}

/-- A dataset of these extents and a heap that grows, which holds what it held before. -/
structure Intact (heap : σ → Dataset UInt8) (dims : List Nat) (before : List UInt8) (p : Dataset Pointer × σ) :
    Prop where
  sound : p.1.store.Sound
  dims : p.1.shape.dims = dims
  grows : (heap p.2).Grows
  kept : before <+: (heap p.2).elements

def writeEach (S : Sink σ) (calls : List (WriteOptions × List (List UInt8))) (p : Dataset Pointer × σ) :
    List (Outcome Unit) × Dataset Pointer × σ :=
  Action.each (fun call => writeElements S call.1 call.2) calls p

section
variable (hS : S.Over heap) {dims : List Nat} {before : List UInt8} {p : Dataset Pointer × σ}
include hS

theorem writeElements_intact (h : Intact heap dims before p) (o : WriteOptions) (contents : List (List UInt8)) :
    Intact heap dims before (writeElements S o contents p).2 ∧
      ArrayEnded p.1 (heap p.2).elements contents (writeElements S o contents p).1
        (writeElements S o contents p).2.1 (heap (writeElements S o contents p).2.2).elements := by
  obtain ⟨hgrows, hended⟩ := writeElements_ended hS h.sound h.grows o contents
  obtain ⟨hsound, hshape⟩ := hended.keeps h.sound
  obtain ⟨added, -, hadded, -⟩ := hended.grown
  refine ⟨⟨hsound, ?_, hgrows, ?_⟩, hended⟩
  · exact (congrArg Shape.dims hshape).trans h.dims
  · exact h.kept.trans ⟨added, hadded.symm⟩

theorem writeEach_intact (h : Intact heap dims before p) (calls : List (WriteOptions × List (List UInt8))) :
    Intact heap dims before (writeEach S calls p).2 :=
  Action.each_keeps (I := Intact heap dims before) (fun call _ hp => (writeElements_intact hS hp call.1 call.2).1) h
    calls

theorem writeEach_of_ne_ok (h : Intact heap dims before p) {calls : List (WriteOptions × List (List UInt8))}
    (hx : ∀ x ∈ (writeEach S calls p).1, x ≠ .ok ()) : (writeEach S calls p).2.1 = p.1 := by
  induction calls generalizing p with
  | nil => rfl
  | cons call calls ih =>
    obtain ⟨hintact, hended⟩ := writeElements_intact hS h call.1 call.2
    rw [writeEach, Action.each_cons, List.forall_mem_cons] at hx
    exact (ih hintact hx.2).trans (hended.of_ne_ok hx.1)

end

/-- Whatever appends of the heap fail, a call that fails leaves the pointers as they are, and to the heap it adds no
more than a first part of its contents. The pointers of a call that succeeds lead to its contents ever after, and its
array can be read until another call succeeds. -/
theorem earlier_arrays_kept (hS : S.Over heap) {d : Dataset Pointer} (hd : d.Reached) {s : σ} (hs : (heap s).Reached)
    (he : (heap s).store.extensible = true) (before after : List (WriteOptions × List (List UInt8)))
    (o : WriteOptions) (contents : List (List UInt8)) :
    let p := (writeEach S before (d, s)).2
    let r := writeElements S o contents p
    let q := writeEach S after r.2
    (r.1 ≠ .ok () → r.2.1 = p.1) ∧
    ((heap p.2).size + contents.flatten.length < 2 ^ 64 → r.1 ≠ .trap) ∧
    (∃ added, added <+: contents.flatten ∧ (heap r.2.2).elements = (heap p.2).elements ++ added ∧
      (r.1 = .ok () → added = contents.flatten)) ∧
    (r.1 = .ok () →
      (∃ pointers, r.2.1.read (Slab.whole r.2.1.shape) = .ok pointers ∧ pointers.length = contents.length ∧
        ∀ (i : Nat) pointer content, pointers[i]? = some pointer → contents[i]? = some content →
          (HeapReader.ofView (heap q.2.2).view).read pointer = .ok content) ∧
      ((∀ x ∈ q.1, x ≠ .ok ()) → ∀ options : ReadOptions, options.trim = .keep →
        readArray options q.2.1.view (heap q.2.2).view = .ok contents)) := by
  intro p r q
  have hp : Intact heap d.shape.dims [] p :=
    writeEach_intact hS (p := (d, s)) ⟨hd.sound, rfl, ⟨hs.sound, he⟩, List.nil_prefix⟩ before
  obtain ⟨hr, hended⟩ := writeElements_intact hS hp o contents
  -- What the later calls must keep is the heap as this one left it, not as it was in the beginning.
  have hrq : Intact heap d.shape.dims (heap r.2.2).elements r.2 := ⟨hr.sound, hr.dims, hr.grows, List.prefix_rfl⟩
  have hq := writeEach_intact hS hrq after
  refine ⟨hended.of_ne_ok, ?_, hended.grown, ?_⟩
  · intro hlen
    rw [← Dataset.length_elements] at hlen
    exact hended.ne_trap hlen
  · intro hx
    have hdescribes := (hended.describes hx).mono hq.kept
    constructor
    · refine ⟨r.2.1.listed, Dataset.read_whole hr.sound ?_, ?_, ?_⟩
      · rw [hr.dims]
        exact hd.extent_lt
      · rw [Dataset.length_listed hr.sound]
        exact hdescribes.count.symm
      · intro i pointer content hpointer hcontent
        exact HeapReader.read_eq_ok hq.grows (hdescribes.listed hpointer hcontent)
    · intro hfailed options ho
      rw [show q.2.1 = r.2.1 from writeEach_of_ne_ok hS hrq hfailed]
      exact hdescribes.readArray hq.grows ho

theorem earlier_arrays_kept_after_failure :
    ∃ (d : Dataset Pointer) (heap : Dataset UInt8) (S : Sink (Observed (Dataset UInt8))), d.New ∧ heap.New ∧
      S = Sink.observed Sink.dataset (· == 3) ∧
      let p := (writeEach S [({}, [[1, 2], []])] (d, ⟨heap, []⟩)).2
      let r := writeElements S {} [[3], [4, 5]] p
      let q := writeEach S [({ flushThreshold := 2 }, [[7, 8], [9]])] r.2
      r.1 = .ok () ∧ q.1 = [.fail (.invalidArgument "injected failure")] ∧
        q.2.2.sink.elements = [1, 2, 3, 4, 5, 7, 8] ∧
        readArray {} q.2.1.view q.2.2.sink.view = .ok [[3], [4, 5]] := by
  have hshape : DatasetConfig.shape ⟨[2], [1], 1, false⟩ = .ok (Shape.rowMajor [2]) := by decide
  have hlayout : DatasetConfig.layout ⟨[2], [1], 1, false⟩ = .ok (.chunked [1] [.shuffle, .deflate 1]) := by decide
  have hd : Dataset.New (α := Pointer)
      ⟨[], ⟨Shape.rowMajor [2], .chunked [1] [.shuffle, .deflate 1], false, [1], 1, []⟩⟩ :=
    .fixed hshape hlayout rfl
  have hheap : Dataset.New (α := UInt8) ⟨[], ⟨Shape.rowMajor [0], .chunked [4] [], true, [4], 4, []⟩⟩ :=
    .uncompressed [] (show (4 : UInt64) ≠ 0 by decide)
  obtain ⟨-, -, -, hread⟩ := earlier_arrays_kept (Sink.observed_over Sink.dataset_over (· == 3)) hd.reached
    (s := ⟨_, []⟩) hheap.reached rfl [({}, [[1, 2], []])] [({ flushThreshold := 2 }, [[7, 8], [9]])] {} [[3], [4, 5]]
  refine ⟨_, _, _, hd, hheap, rfl, by decide +kernel, by decide +kernel, by decide +kernel, ?_⟩
  exact (hread (by decide +kernel)).2 (by decide +kernel) {} rfl

end Ragged

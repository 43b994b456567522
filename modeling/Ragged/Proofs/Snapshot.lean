import Ragged.Proofs.Atomic
import Ragged.Proofs.Resolving
import Ragged.Proofs.Streaming

/-!
# Readers that are held

A reader takes the size of the heap when it is made and fetches from the heap as it is when it is used. While the heap
only grows, the reader shows the bytes that were there first: what was appended since stays out of its reach, and what
it fetches has not changed.
-/

namespace Ragged

variable {X : Type} [Elements X]

/-! ## What is fetched -/

namespace HeapReader

variable {σ : Type}

/-- Follows a pointer where to fetch may leave a mark. -/
def readThrough (size : Nat) (fetch : Slab → Action σ (List UInt8)) (p : Pointer) : Action σ (List UInt8) := do
  let (start, stop) ← p.checkWithin size
  if start < stop then fetch (Slab.range start p.length.toNat) else return []

theorem readThrough_view (r : HeapReader) (p : Pointer) (s : σ) :
    readThrough r.size (fun slab => Action.view fun _ => r.fetch slab) p s = (r.read p, s) := by
  rw [readThrough, read]
  cases p.checkWithin r.size with
  | ok range =>
    rw [Action.lift_ok_bind, Outcome.ok_bind]
    by_cases hlt : range.1 < range.2
    · simp only [if_pos hlt]
      rfl
    · simp only [if_neg hlt]
      rfl
  | fail e => rfl
  | trap => rfl

theorem readThrough_of_inside {size : Nat} (hs : size < 2 ^ 64) (fetch : Slab → Action σ (List UInt8)) {p : Pointer}
    (hin : p.offset.toNat + p.length.toNat ≤ size) (hlen : 0 < p.length.toNat) :
    readThrough size fetch p = fetch (Slab.range p.offset.toNat p.length.toNat) := by
  rw [readThrough, p.checkWithin_eq hs, if_pos hin, Action.lift_ok_bind]
  exact if_pos (by omega)

theorem readThrough_of_idle {size : Nat} (hs : size < 2 ^ 64) (fetch fetch' : Slab → Action σ (List UInt8))
    {p : Pointer} (hidle : ¬ (p.offset.toNat + p.length.toNat ≤ size ∧ 0 < p.length.toNat)) :
    readThrough size fetch p = readThrough size fetch' p := by
  rw [readThrough, readThrough, p.checkWithin_eq hs]
  by_cases hin : p.offset.toNat + p.length.toNat ≤ size
  · rw [if_pos hin, Action.lift_ok_bind, Action.lift_ok_bind]
    have hnone : ¬ p.offset.toNat < p.offset.toNat + p.length.toNat := by omega
    simp only [if_neg hnone]
  · rw [if_neg hin]
    rfl

end HeapReader

/-! ## Growing -/

namespace Dataset

variable {α : Type} [Inhabited α]

/-- What a dataset of one dimension may grow to: the elements that it had are still at their places. -/
structure GrewTo (d d' : Dataset α) : Prop where
  linear : d'.Linear
  elements : d.elements <+: d'.elements

theorem Linear.grewTo {d : Dataset α} (h : d.Linear) : d.GrewTo d := ⟨h, List.prefix_rfl⟩

theorem GrewTo.perform {d d' : Dataset α} (h : d.GrewTo d') {op : Op α} (hop : ∀ slab values, op ≠ .write slab values) :
    d.GrewTo (perform op d').2 := by
  cases op with
  | read slab => exact h
  | write slab values => exact absurd rfl (hop slab values)
  | append values =>
    rw [Dataset.perform, Action.snd_bind_pure]
    by_cases he : d'.store.extensible = true
    · have hgrows : d'.Grows := ⟨h.linear.sound, he⟩
      by_cases hv : d'.size + values.length < 2 ^ 64
      · obtain ⟨store, happend, hgrown, helements⟩ := hgrows.append_eq_ok hv
        rw [happend]
        exact ⟨hgrown.linear, h.elements.trans (helements ▸ List.prefix_append _ _)⟩
      · rw [hgrows.append_eq_fail hv]
        exact h
    · rw [append_of_fixed he]
      exact h

theorem GrewTo.read_range {d d' : Dataset α} (h : d.GrewTo d') {start count : Nat} (hb : start + count ≤ d.size) :
    d'.read (Slab.range start count) = .ok ((d.elements.drop start).take count) := by
  obtain ⟨more, hmore⟩ := h.elements
  have hsize : d.size ≤ d'.size := by
    rw [← length_elements, ← length_elements]
    exact h.elements.length_le
  have hle : start ≤ d.elements.length := by
    rw [length_elements]
    omega
  rw [h.linear.read_range (Nat.le_trans hb hsize), ← hmore, List.drop_append_of_le_length hle,
    List.take_append_of_le_length]
  rw [List.length_drop, length_elements]
  omega

end Dataset

namespace Session

/-- While the acts are performed, the handles of a path are used to read and to append, and not to write over what is
there. All else is left open. -/
def OnlyGrows (p : Path) : List (Act X) → State (Catalog X) (AnyHandle X) → Prop
  | [], _ => True
  | act :: acts, s =>
    (∀ i op k, act = .use i op → s.handles[i]? = some k → k.2.path = p → ∀ slab values, op k.1 ≠ .write slab values) ∧
      OnlyGrows p acts (byPath.perform act s).2

theorem OnlyGrows.grewTo {t : ElementType X} {h : Handle t} {d d' : Dataset t.Carrier} {acts : List (Act X)}
    {s : State (Catalog X) (AnyHandle X)} (hgrows : OnlyGrows h.path acts s) (hd : s.container.dataset? h = some d')
    (hgrew : d.GrewTo d') :
    ∃ d'', (Action.each byPath.perform acts s).2.container.dataset? h = some d'' ∧ d.GrewTo d'' := by
  induction acts generalizing s d' with
  | nil => exact ⟨d', hd, hgrew⟩
  | cons act acts ih =>
    obtain ⟨hact, hrest⟩ := hgrows
    rw [Action.each_cons]
    rcases (changed act s).dataset?_cases hd with hkept | ⟨i, op, rfl, hi, hused⟩
    · exact ih hrest hkept hgrew
    · exact ih hrest hused (hgrew.perform (hact i op _ rfl hi rfl))

end Session

/-! ## The bytes that were there -/

theorem Outcome.answered_iff {α : Type} {x : Outcome α} {a : α} {e : Error} {condition : Prop} [Decidable condition]
    (h : x = if condition then .ok a else .fail e) (he : e.isCorruption = true) :
    ((∃ b, x = .ok b) ↔ condition) ∧ (∀ b, x = .ok b → b = a) ∧ x ≠ .trap ∧
      ∀ e', x = .fail e' → e'.isCorruption = true := by
  by_cases hc : condition
  · rw [if_pos hc] at h
    subst h
    exact ⟨iff_of_true ⟨a, rfl⟩ hc, fun b hb => (Outcome.ok.inj hb).symm, nofun, nofun⟩
  · rw [if_neg hc] at h
    subst h
    refine ⟨iff_of_false nofun hc, nofun, nofun, ?_⟩
    rintro e' ⟨⟩
    exact he

def Handle.heldReader (h : @Handle X .byte) (made used : Catalog X) : Outcome HeapReader := do
  let size ← h.view (fun d => .ok d.size) made
  return ⟨size, fun slab => h.view (fun d => d.read slab) used⟩

theorem Handle.heldReader_eq {h : @Handle X .byte} {made used : Catalog X} {d d' : Dataset UInt8}
    (hd : made.dataset? h = some d) (hd' : used.dataset? h = some d') :
    h.heldReader made used = .ok ⟨d.size, d'.read⟩ := by
  have hfetch : (fun slab => h.view (fun d => d.read slab) used) = d'.read := by
    funext slab
    exact view_eq hd' _
  rw [heldReader, view_eq hd, Outcome.ok_bind, hfetch]
  rfl

/-- A reader of a heap of one dimension that only grows shows the bytes that the heap had when the reader was made. A
pointer that led out of the heap then is refused as corrupt, whatever was appended since. The heap is called to fetch
bytes that are there, with the range of the pointer, and in no other case. -/
theorem held_reader_is_snapshot {acts more : List (Session.Act X)} (hacts : ∀ act ∈ acts, act.Sized)
    {h : @Handle X .byte} {d : Dataset UInt8}
    (hd : (Action.each Session.byPath.perform acts ⟨.empty, []⟩).2.container.dataset? h = some d)
    (hrank : d.shape.rank = 1)
    (hmore : Session.OnlyGrows h.path more (Action.each Session.byPath.perform acts ⟨.empty, []⟩).2) :
    let made := (Action.each Session.byPath.perform acts ⟨.empty, []⟩).2
    let used := (Action.each Session.byPath.perform more made).2
    h.heldReader made.container made.container = .ok (HeapReader.ofView d.view) ∧
    ∃ reader bytes, h.heldReader made.container used.container = .ok reader ∧
      d.read (Slab.whole d.shape) = .ok bytes ∧ bytes.length = d.size ∧
      ∀ offset length : UInt64,
        let answer := reader.readRange offset length
        reader.read ⟨offset, length⟩ = answer ∧
        ((∃ content, answer = .ok content) ↔ offset.toNat + length.toNat ≤ d.size) ∧
        (∀ content, answer = .ok content → content = (bytes.drop offset.toNat).take length.toNat) ∧
        answer ≠ .trap ∧ (∀ e, answer = .fail e → e.isCorruption = true) ∧
        ∀ {σ : Type} (fetch : Slab → Action σ (List UInt8)) (s : σ),
          HeapReader.readThrough reader.size (fun slab => Action.view fun _ => reader.fetch slab) ⟨offset, length⟩ s =
            (answer, s) ∧
          HeapReader.readThrough reader.size fetch ⟨offset, length⟩ s =
            if offset.toNat + length.toNat ≤ d.size ∧ 0 < length.toNat then
              fetch (Slab.range offset.toNat length.toNat) s
            else (answer, s) := by
  intro made used
  have hreached : d.Reached :=
    Session.inUse_each hacts _ (List.mem_of_find?_eq_some (Catalog.dataset?_eq_some.mp hd))
  have hlinear : d.Linear := .of_rank hreached.sound hrank
  obtain ⟨d', hd', hgrew⟩ := hmore.grewTo hd hlinear.grewTo
  refine ⟨Handle.heldReader_eq hd hd, ⟨d.size, d'.read⟩, d.elements, Handle.heldReader_eq hd hd', hlinear.read_whole,
    Dataset.length_elements d, fun offset length => ?_⟩
  have hread : (⟨d.size, d'.read⟩ : HeapReader).read ⟨offset, length⟩ = _ :=
    HeapReader.read_of_fetch hlinear.size_lt (fun _ _ hin => hgrew.read_range hin) ⟨offset, length⟩
  obtain ⟨hok, hcontent, htrap, hcorrupt⟩ := Outcome.answered_iff hread (by rfl)
  refine ⟨rfl, hok, hcontent, htrap, hcorrupt, fun fetch s => ⟨HeapReader.readThrough_view _ _ s, ?_⟩⟩
  by_cases hfetched : offset.toNat + length.toNat ≤ d.size ∧ 0 < length.toNat
  · rw [if_pos hfetched, HeapReader.readThrough_of_inside hlinear.size_lt fetch hfetched.1 hfetched.2]
  · rw [if_neg hfetched, HeapReader.readThrough_of_idle hlinear.size_lt fetch
      (fun slab => Action.view fun _ => d'.read slab) hfetched]
    exact HeapReader.readThrough_view ⟨d.size, d'.read⟩ _ s

theorem held_reader_is_snapshot_grown :
    let bytes (values : List UInt8) : Session.Use Empty := fun t =>
      match t with
      | .byte => .append values
      | _ => .append []
    let acts : List (Session.Act Empty) :=
      [.call (.createExtensible .byte "heap" (some 3) 0), .use 0 (bytes [104, 101, 108, 108, 111])]
    let more : List (Session.Act Empty) := [.call (.openDataset .byte "/heap/"), .use 1 (bytes [33, 33])]
    let made := (Action.each Session.byPath.perform acts ⟨.empty, []⟩).2
    let used := (Action.each Session.byPath.perform more made).2
    ∃ reader, Handle.heldReader ⟨["heap"]⟩ made.container used.container = .ok reader ∧
      Handle.view ⟨["heap"]⟩ (fun d : Dataset (ElementType.Carrier .byte) => .ok d.size) used.container = .ok 7 ∧
      reader.readRange 1 4 = .ok [101, 108, 108, 111] ∧
      (∃ content, reader.readRange 5 0 = .ok content) ∧
      (¬ ∃ content, reader.readRange 4 2 = .ok content) ∧
      ¬ ∃ content, reader.readRange (UInt64.ofNat Word.last) 2 = .ok content := by
  intro bytes acts more made used
  have hacts : ∀ act ∈ acts, act.Sized := by
    simp only [acts, List.forall_mem_cons]
    exact ⟨trivial, fun t => by cases t <;> trivial, nofun⟩
  obtain ⟨d, hd, hrank, hsize, hbytes⟩ : ∃ d : Dataset UInt8,
      made.container.dataset? (⟨["heap"]⟩ : Handle .byte) = some d ∧ d.shape.rank = 1 ∧ d.size = 5 ∧
        d.read (Slab.whole d.shape) = .ok [104, 101, 108, 108, 111] :=
    ⟨_, rfl, rfl, rfl, rfl⟩
  have hmore : Session.OnlyGrows ["heap"] more made := by
    refine ⟨nofun, ?_, trivial⟩
    rintro i op ⟨t, k⟩ ⟨⟩ - - slab values
    cases t <;> exact nofun
  obtain ⟨-, reader, held, hreader, hheld, -, hranges⟩ := held_reader_is_snapshot hacts hd hrank hmore
  obtain rfl := Outcome.ok.inj (hbytes.symm.trans hheld)
  rw [hsize] at hranges
  refine ⟨reader, hreader, rfl, ?_, ?_, ?_, ?_⟩
  · obtain ⟨-, hok, hcontent, -⟩ := hranges 1 4
    obtain ⟨content, hanswer⟩ := hok.mpr (by decide)
    rw [hanswer, hcontent content hanswer]
    rfl
  · exact (hranges 5 0).2.1.mpr (by decide)
  · exact fun h => absurd ((hranges 4 2).2.1.mp h) (by decide)
  · exact fun h => absurd ((hranges _ 2).2.1.mp h) (by decide)

end Ragged

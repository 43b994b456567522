import Ragged.Proofs.Allocation
import Ragged.Proofs.Creating
import Ragged.Proofs.History

/-!
# Names of groups

The name of a group is trimmed at its ends only, and the container drops every empty part of a path. Taken together
every name leads to the parts of the group. So names with the same parts lead to one array, and arrays in groups with
different parts have no dataset in common.
-/

namespace Ragged

variable {X : Type} [Elements X]

namespace Path

def normalize (s : String) : String := (ofString s).render

theorem normalize_normalize (s : String) : normalize (normalize s) = normalize s := by
  rw [normalize, normalize, ofString_render (normal_ofString s)]

theorem normalize_eq_iff {s s' : String} : normalize s = normalize s' ↔ ofString s = ofString s' := by
  constructor
  · intro h
    rw [← ofString_render (normal_ofString s), ← ofString_render (normal_ofString s')]
    exact congrArg ofString h
  · exact congrArg render

theorem ofString_parts (s : String) : ofString s = ((s.toList.splitOn '/').filter (· ≠ [])).map String.ofList := by
  rw [ofString, split_eq_splitOn]

theorem append_singleton_eq {p q : Path} {name name' : String} (h : p ++ [name] = q ++ [name']) :
    p = q ∧ name = name' := by
  obtain ⟨hp, hname⟩ := List.append_inj' h rfl
  exact ⟨hp, List.singleton_inj.mp hname⟩

end Path

namespace Catalog

theorem Made.entry? {c c' : Catalog X} {steps : List (Path × Outcome (Item X))} (h : Made c steps c') {q : Path}
    {e : Entry X} (he : c.entry? q = some e) : c'.entry? q = some e := by
  induction h with
  | nil c => exact he
  | cons hv _ ih => exact ih (entry?_add hv _ he)

end Catalog

namespace StoredArray

open Catalog Session

/-- The datasets of an array are in a container, and ready for use. -/
structure Stored (a : StoredArray X) (c : Catalog X) (d : Dataset Pointer) (heap : Dataset UInt8) : Prop where
  pointers : c.dataset? a.pointers = some d
  bytes : c.dataset? a.heap = some heap
  reached : d.Reached
  bytesReached : heap.Reached
  extensible : heap.store.extensible = true

/-! ## New arrays -/

theorem stored_of_create {group : String} {s : Shape} {o : WriteOptions} {c c' : Catalog X} {a : StoredArray X}
    (h : create group s o c = (.ok a, c')) :
    a = inGroup group ∧ Made c (steps c group s o) c' ∧ ∃ d heap, a.Stored c' d heap := by
  obtain ⟨c₁, hok, hmade⟩ | ⟨e, c₁, -, -, -, hfail, -⟩ := create_cases c group s o
  · rw [hok] at h
    cases h
    obtain ⟨d, heap, hd, hheap, hnew, hnew', hext, -⟩ := datasets_of_made hmade
    exact ⟨rfl, hmade, d, heap, hd, hheap, hnew.reached, hnew'.reached, hext⟩
  · rw [hfail] at h
    cases h

/-! ## Later on -/

theorem extensible_perform {α : Type} [Inhabited α] {d : Dataset α} (h : d.Reached) {op : Op α} (hs : op.Sized) :
    (Dataset.perform op d).2.store.extensible = d.store.extensible := by
  rcases h.perform_cases hs with ⟨values, store, hok, hwrote⟩ | ⟨e, hfail⟩
  · rw [hok]
    exact hwrote.extensible
  · rw [hfail]

theorem reached_after {t : ElementType X} {h : Handle t} {d : Dataset t.Carrier} {act : Act X} (hact : act.Sized)
    {s : State (Catalog X) (AnyHandle X)} (hd : s.container.dataset? h = some d) (hr : d.Reached) :
    ∃ d', (byPath.perform act s).2.container.dataset? h = some d' ∧ d'.Reached ∧
      d'.store.extensible = d.store.extensible := by
  rcases (changed act s).dataset?_cases hd with hkept | ⟨i, op, rfl, -, hused⟩
  · exact ⟨d, hkept, hr, rfl⟩
  · exact ⟨_, hused, hr.perform _ (hact t), extensible_perform hr (hact t)⟩

theorem Stored.after {a : StoredArray X} {acts : List (Act X)} (hacts : ∀ act ∈ acts, act.Sized)
    {s : State (Catalog X) (AnyHandle X)} (h : ∃ d heap, a.Stored s.container d heap) :
    ∃ d heap, a.Stored (Action.each byPath.perform acts s).2.container d heap := by
  refine Action.each_keeps_of_mem
    (I := fun s : State (Catalog X) (AnyHandle X) => ∃ d heap, a.Stored s.container d heap) ?_ h
  rintro act hact s ⟨d, heap, hstored⟩
  obtain ⟨d', hd', hreached, -⟩ := reached_after (hacts act hact) hstored.pointers hstored.reached
  obtain ⟨heap', hheap', hreached', hext⟩ := reached_after (hacts act hact) hstored.bytes hstored.bytesReached
  exact ⟨d', heap', hd', hheap', hreached, hreached', hext.trans hstored.extensible⟩

theorem Stored.made {a : StoredArray X} {c c' : Catalog X} {steps : List (Path × Outcome (Item X))}
    {d : Dataset Pointer} {heap : Dataset UInt8} (h : a.Stored c d heap) (hmade : Made c steps c') :
    a.Stored c' d heap where
  pointers := dataset?_eq_some.mpr (hmade.entry? (dataset?_eq_some.mp h.pointers))
  bytes := dataset?_eq_some.mpr (hmade.entry? (dataset?_eq_some.mp h.bytes))
  reached := h.reached
  bytesReached := h.bytesReached
  extensible := h.extensible

/-! ## Opening -/

theorem openDataset_of_dataset? {t : ElementType X} {c : Catalog X} {path : String} {d : Dataset t.Carrier}
    {h : Handle t} (hd : c.dataset? h = some d) (hpath : Path.ofString path = h.path) :
    c.openDataset t path = .ok h := by
  unfold openDataset
  simp only [hpath, dataset?_eq_some.mp hd]
  simp [Outcome.ofOption, Entry.as?]

theorem Stored.openGroup {g g' : String} (hg : Path.ofString g' = Path.ofString g) {c : Catalog X} {d : Dataset Pointer}
    {heap : Dataset UInt8} (h : (inGroup g).Stored c d heap) : openGroup c g' = .ok (inGroup g') := by
  have hmember {name : String} (hne : name ≠ "") (hslash : '/' ∉ name.toList) :
      Path.ofString (Path.child (Path.trimSlashes g') name) = Path.ofString g ++ [name] := by
    rw [Path.ofString_member g' hne hslash, hg]
  have hpointers := openDataset_of_dataset? h.pointers (hmember (by decide) (by decide))
  have hheap := openDataset_of_dataset? h.bytes (hmember (by decide) (by decide))
  unfold StoredArray.openGroup
  simp only [hpointers, hheap, inGroup, hg]
  rfl

/-! ## Writing and reading -/

section
omit [Elements X]

def paths (a : StoredArray X) : List Path := [a.pointers.path, a.heap.path]

theorem inGroup_ne (g : String) : (inGroup (X := X) g).pointers.path ≠ (inGroup (X := X) g).heap.path := by
  intro h
  exact absurd (Path.append_singleton_eq h).2 (by decide)

theorem disjoint_paths_inGroup {g g' : String} (hg : Path.ofString g ≠ Path.ofString g') :
    (inGroup (X := X) g).paths.Disjoint (inGroup (X := X) g').paths := by
  intro p hp hp'
  simp only [paths, inGroup, List.mem_cons, List.not_mem_nil, or_false] at hp hp'
  rcases hp with rfl | rfl
  · rcases hp' with h | h <;> exact hg (Path.append_singleton_eq h).1
  · rcases hp' with h | h <;> exact hg (Path.append_singleton_eq h).1

end

section
variable {a : StoredArray X} {c : Catalog X} {d : Dataset Pointer} {heap : Dataset UInt8} (h : a.Stored c d heap)
include h

theorem Stored.readWith {α : Type} (f : View Pointer → View UInt8 → Outcome α) :
    a.readWith f c = f d.view heap.view := by
  rw [StoredArray.readWith, Handle.view_eq h.pointers, Handle.view_eq h.bytes]

theorem Stored.write (o : WriteOptions) (contents : List (List UInt8)) :
    ∃ (x : Outcome Unit) (d' : Dataset Pointer) (heap' : Dataset UInt8),
      a.write o contents c = (x, put (t := .byte) (put (t := .pointer) c d') heap') ∧ d'.path = a.pointers.path ∧
      heap'.path = a.heap.path ∧ heap'.Grows ∧ ArrayEnded d heap.elements contents x d' heap'.elements := by
  have hgrows : heap.Grows := ⟨h.bytesReached.sound, h.extensible⟩
  obtain ⟨hpath, hpath'⟩ := writeElements_paths h.reached.sound hgrows o contents
  obtain ⟨hgrows', hended⟩ := writeElements_ended Sink.dataset_over h.reached.sound hgrows o contents
  exact ⟨_, _, _, write_eq h.pointers h.bytes o contents, hpath.trans (path_of_dataset? h.pointers),
    hpath'.trans (path_of_dataset? h.bytes), hgrows', hended⟩

theorem Stored.read_written (hne : a.pointers.path ≠ a.heap.path) {o : WriteOptions}
    {contents : List (List UInt8)} {c' : Catalog X} (hwrite : a.write o contents c = (.ok (), c')) {r : ReadOptions}
    (hr : r.trim = .keep) : a.read r c' = .ok contents := by
  obtain ⟨x, d', heap', hwrote, hpath, hpath', hgrows, hended⟩ := h.write o contents
  obtain ⟨rfl, rfl⟩ := Prod.mk.inj (hwrite.symm.trans hwrote)
  -- The pointers are put back first, and the heap that is put back after them lies elsewhere.
  have hd : (put (t := .pointer) c d').dataset? a.pointers = some d' :=
    dataset?_put h.pointers (hpath.trans (path_of_dataset? h.pointers).symm)
  have hheap : (put (t := .pointer) c d').dataset? a.heap = some heap :=
    dataset?_put_of_ne h.bytes (hpath ▸ hne)
  rw [StoredArray.read, StoredArray.readWith,
    Handle.view_eq (dataset?_put_of_ne hd (hpath' ▸ hne.symm)),
    Handle.view_eq (dataset?_put hheap (hpath'.trans (path_of_dataset? h.bytes).symm))]
  exact (hended.describes rfl).readArray hgrows hr

theorem Stored.frame {b : StoredArray X} {e : Dataset Pointer} {bytes : Dataset UInt8} (hb : b.Stored c e bytes)
    (hdisjoint : a.paths.Disjoint b.paths) (o : WriteOptions) (contents : List (List UInt8)) :
    b.Stored (a.write o contents c).2 e bytes := by
  obtain ⟨x, d', heap', hwrote, hpath, hpath', -, -⟩ := h.write o contents
  have hkept {t : ElementType X} {k : Handle t} {s : Dataset t.Carrier} (hs : c.dataset? k = some s)
      (hk : k.path ∈ b.paths) : (a.write o contents c).2.dataset? k = some s := by
    rw [hwrote]
    refine dataset?_put_of_ne (dataset?_put_of_ne hs ?_) ?_
    · rw [hpath]
      exact fun heq => hdisjoint List.mem_cons_self (heq ▸ hk)
    · rw [hpath']
      exact fun heq => hdisjoint (List.mem_cons_of_mem _ List.mem_cons_self) (heq ▸ hk)
  exact { hb with
    pointers := hkept hb.pointers List.mem_cons_self
    bytes := hkept hb.bytes (List.mem_cons_of_mem _ List.mem_cons_self) }

end

/-! ## One array for all names of a group -/

/-- A text and its normal form name the same, and the datasets of an array have the parts of its group and one more,
whatever slashes the name of the group has. So an array that was created can be opened from then on, whatever else
is done to the container, under every name that has the parts of its group: this leads to its two datasets, and what is
written under one name is read under the other. Arrays in groups with other parts have other datasets, and writing one
does not change what the other shows. -/
theorem spellings_share_array :
    (∀ s, Path.normalize (Path.normalize s) = Path.normalize s) ∧
    (∀ s, Path.ofString s = ((s.toList.splitOn '/').filter (· ≠ [])).map String.ofList) ∧
    (∀ s s', Path.normalize s = Path.normalize s' ↔ Path.ofString s = Path.ofString s') ∧
    (∀ g name, name ≠ "" → '/' ∉ name.toList →
      Path.normalize (Path.child (Path.trimSlashes g) name) = Path.render (Path.ofString g ++ [name]) ∧
        Path.ofString (Path.child (Path.trimSlashes g) name) = Path.ofString g ++ [name]) ∧
    ∀ {g : String} {s : Shape} {o : WriteOptions} {c c' : Catalog X} {a : StoredArray X},
      create g s o c = (.ok a, c') →
      ∀ (more : List (Act X)) (handles : List (AnyHandle X)), (∀ act ∈ more, act.Sized) →
        let now := (Action.each byPath.perform more ⟨c', handles⟩).2.container
        (∃ d heap, now.dataset? a.pointers = some d ∧ d.path = Path.ofString g ++ ["pointers"] ∧
          now.dataset? a.heap = some heap ∧ heap.path = Path.ofString g ++ ["heap"]) ∧
        (∀ g', Path.ofString g' = Path.ofString g → ∃ b, openGroup now g' = .ok b ∧ b.pointers = a.pointers ∧
          b.heap = a.heap ∧ (∀ {α : Type} (f : View Pointer → View UInt8 → Outcome α), b.readWith f = a.readWith f) ∧
          ∀ w contents r, r.trim = .keep → ∀ c₁,
            (a.write w contents now = (.ok (), c₁) → b.read r c₁ = .ok contents) ∧
            (b.write w contents now = (.ok (), c₁) → a.read r c₁ = .ok contents)) ∧
        ∀ g' s' o' b c₁, Path.ofString g' ≠ Path.ofString g → create g' s' o' now = (.ok b, c₁) →
          a.paths.Disjoint b.paths ∧
          ∀ w contents {α : Type} (f : View Pointer → View UInt8 → Outcome α),
            b.readWith f (a.write w contents c₁).2 = b.readWith f c₁ ∧
            a.readWith f (b.write w contents c₁).2 = a.readWith f c₁ := by
  refine ⟨Path.normalize_normalize, Path.ofString_parts, fun _ _ => Path.normalize_eq_iff, ?_, ?_⟩
  · intro g name hne hslash
    have hparts := Path.ofString_member g hne hslash
    exact ⟨congrArg Path.render hparts, hparts⟩
  · intro g s o c c' a hcreate more handles hmore now
    obtain ⟨rfl, -, d, heap, hcreated⟩ := stored_of_create hcreate
    obtain ⟨d, heap, hstored⟩ := Stored.after (s := ⟨c', handles⟩) hmore ⟨d, heap, hcreated⟩
    refine ⟨⟨d, heap, hstored.pointers, path_of_dataset? hstored.pointers, hstored.bytes,
      path_of_dataset? hstored.bytes⟩, ?_, ?_⟩
    · intro g' hg
      -- The arrays differ in the names of their groups only, which no call looks at.
      have hpointers : (inGroup (X := X) g').pointers = (inGroup g).pointers := by rw [inGroup, inGroup, hg]
      have hheap : (inGroup (X := X) g').heap = (inGroup g).heap := by rw [inGroup, inGroup, hg]
      have hread {α : Type} (f : View Pointer → View UInt8 → Outcome α) :
          (inGroup (X := X) g').readWith f = (inGroup g).readWith f := by
        unfold StoredArray.readWith
        rw [hpointers, hheap]
      have hwrite : (inGroup (X := X) g').write = (inGroup g).write := by
        unfold StoredArray.write
        rw [hpointers, hheap]
      refine ⟨_, hstored.openGroup hg, hpointers, hheap, hread, fun w contents r hr c₁ => ?_⟩
      rw [StoredArray.read, hread, hwrite]
      exact ⟨fun h => hstored.read_written (inGroup_ne g) h hr, fun h => hstored.read_written (inGroup_ne g) h hr⟩
    · intro g' s' o' b c₁ hg hcreate'
      obtain ⟨rfl, hmade, d', heap', hcreated'⟩ := stored_of_create hcreate'
      have hstored' := hstored.made hmade
      have hdisjoint := disjoint_paths_inGroup (X := X) (Ne.symm hg)
      refine ⟨hdisjoint, fun w contents α f => ?_⟩
      rw [(hstored'.frame hcreated' hdisjoint w contents).readWith, hcreated'.readWith,
        (hcreated'.frame hstored' hdisjoint.symm w contents).readWith, hstored'.readWith]
      exact ⟨rfl, rfl⟩

theorem spellings_share_array_nested :
    let o : WriteOptions := { heapChunkLen := some 4 }
    let c : Catalog := (Action.each byPath.perform [.call (.createGroup "a")] ⟨empty, []⟩).2.container
    let r := create "//a//b/" (Shape.rowMajor [2]) o c
    let a : StoredArray := ⟨"a//b", ⟨["a", "b", "pointers"]⟩, ⟨["a", "b", "heap"]⟩⟩
    let more : List (Act Empty) := [.call (.createGroup "a/b/c"), .call (.openDataset .byte "a/b/heap")]
    let now := (Action.each byPath.perform more ⟨r.2, []⟩).2.container
    r.1 = .ok a ∧
    (∃ b c₁, openGroup now "a/b" = .ok b ∧ b.pointers = a.pointers ∧ b.heap = a.heap ∧
      a.write o [[1, 2], [3]] now = (.ok (), c₁) ∧ b.read {} c₁ = .ok [[1, 2], [3]]) ∧
    (∃ b, (create "///" (Shape.rowMajor [1]) o now).1 = .ok b ∧ a.paths.Disjoint b.paths) := by
  intro o c r a more now
  have hcreate : r.1 = .ok a := by decide
  have hmore : ∀ act ∈ more, act.Sized := by
    simp only [more, List.forall_mem_cons]
    exact ⟨trivial, trivial, nofun⟩
  obtain ⟨-, -, -, -, harray⟩ := spellings_share_array (X := Empty)
  obtain ⟨-, hopen, hother⟩ := harray (Prod.ext hcreate rfl : r = (.ok a, r.2)) more [] hmore
  refine ⟨hcreate, ?_, ?_⟩
  · obtain ⟨b, hb, hpointers, hheap, -, hwritten⟩ := hopen "a/b" (by decide)
    have hok : (a.write o [[1, 2], [3]] now).1 = .ok () := by decide +kernel
    obtain ⟨c₁, hwrite⟩ : ∃ c₁, a.write o [[1, 2], [3]] now = (.ok (), c₁) := ⟨_, by rw [← hok]⟩
    exact ⟨b, c₁, hb, hpointers, hheap, hwrite, (hwritten o _ {} rfl c₁).1 hwrite⟩
  · have hroot : (create "///" (Shape.rowMajor [1]) o now).1 = .ok ⟨"", ⟨["pointers"]⟩, ⟨["heap"]⟩⟩ := by decide
    obtain ⟨hdisjoint, -⟩ := hother "///" _ o _ (create "///" (Shape.rowMajor [1]) o now).2 (by decide)
      (Prod.ext hroot rfl)
    exact ⟨_, hroot, hdisjoint⟩

end StoredArray

end Ragged

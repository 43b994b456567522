import Ragged.Proofs.Hierarchy
import Ragged.Proofs.Writing
import Ragged.StoredArray

/-!
# Creating arrays

An array is created in steps: the group if it is missing, the pointers, the heap. Every step is refused or made as a
whole, but the first one that is refused ends the creation and takes back nothing: what the steps before it made stays,
and pointers that stay are in the way of every later attempt.
-/

namespace Ragged

variable {X : Type} [Elements X]

namespace Catalog

def placeAll (steps : List (Path × Outcome (Item X))) : Action (Catalog X) Unit :=
  Action.forEach (fun step => place step.1 step.2) steps

theorem placeAll_nil : placeAll (X := X) [] = pure () := rfl

theorem placeAll_cons (step : Path × Outcome (Item X)) (steps : List (Path × Outcome (Item X))) :
    placeAll (step :: steps) = (do place step.1 step.2; placeAll steps) := rfl

inductive Made : Catalog X → List (Path × Outcome (Item X)) → Catalog X → Prop
  | nil (c : Catalog X) : Made c [] c
  | cons {c c' : Catalog X} {p : Path} {item : Item X} {steps : List (Path × Outcome (Item X))} (hv : c.Vacant p)
      (rest : Made (c.add p item) steps c') : Made c ((p, .ok item) :: steps) c'

section
variable {c c' : Catalog X} {steps : List (Path × Outcome (Item X))} (h : Made c steps c')
include h

theorem Made.suffix : c.groups <:+ c'.groups ∧ c.entries <:+ c'.entries := by
  induction h with
  | nil c => exact ⟨List.suffix_rfl, List.suffix_rfl⟩
  | @cons c c' p item steps hv _ ih =>
    obtain ⟨hgroups, hentries⟩ := suffix_add c p item
    exact ⟨hgroups.trans ih.1, hentries.trans ih.2⟩

theorem Made.keys : c'.keys.Perm (steps.map Prod.fst ++ c.keys) := by
  induction h with
  | nil c => exact List.Perm.refl _
  | @cons c c' p item steps hv _ ih =>
    exact ih.trans (((keys_add c p item).append_left _).trans List.perm_middle)

theorem Made.eq_iff_nil : c' = c ↔ steps = [] := by
  constructor
  · rintro rfl
    have := h.keys.length_eq
    simpa using this
  · rintro rfl
    cases h
    rfl

theorem Made.nested {p : Path} (hp : p ∈ steps.map Prod.fst) :
    p ∈ c'.keys ∧ c'.groupExists p.parent = true := by
  refine ⟨h.keys.mem_iff.mpr (List.mem_append_left _ hp), ?_⟩
  induction h with
  | nil c => cases hp
  | @cons c c' q item steps hv hrest ih =>
    rcases List.mem_cons.mp hp with rfl | hp
    · have hgroups := ((suffix_add c p item).1.trans hrest.suffix.1).subset
      exact groupExists_iff.mpr (hv.parent.imp_right fun hq => hgroups hq)
    · exact ih hp

end

theorem Made.of_cons {c c' : Catalog X} {p : Path} {x : Outcome (Item X)} {steps : List (Path × Outcome (Item X))}
    (h : Made c ((p, x) :: steps) c') : ∃ item, x = .ok item ∧ c.Vacant p ∧ Made (c.add p item) steps c' := by
  generalize hl : (p, x) :: steps = l at h
  cases h with
  | nil => cases hl
  | cons hv hrest =>
    simp only [List.cons.injEq, Prod.mk.injEq] at hl
    obtain ⟨⟨rfl, rfl⟩, rfl⟩ := hl
    exact ⟨_, rfl, hv, hrest⟩

/-- The steps are all made, or one is refused in the catalog that those before it made. -/
theorem placeAll_cases {steps : List (Path × Outcome (Item X))} (hsteps : ∀ step ∈ steps, step.2 ≠ .trap)
    (c : Catalog X) :
    (∃ c', placeAll steps c = (.ok (), c') ∧ Made c steps c') ∨
      ∃ e c' done step rest, placeAll steps c = (.fail e, c') ∧ steps = done ++ step :: rest ∧ Made c done c' ∧
        c'.Refused step.1 step.2 := by
  induction steps generalizing c with
  | nil => exact .inl ⟨c, rfl, .nil c⟩
  | cons step steps ih =>
    obtain ⟨p, x⟩ := step
    rw [List.forall_mem_cons] at hsteps
    obtain ⟨item, rfl, hv, hplace⟩ | ⟨hrefused, e, hplace⟩ := place_cases hsteps.1 p c
    · have hrun : placeAll ((p, .ok item) :: steps) c = placeAll steps (c.add p item) := by
        rw [placeAll, Action.forEach, Action.bind_apply, hplace]
        rfl
      rw [hrun]
      obtain ⟨c', hok, hmade⟩ | ⟨e, c', done, step, rest, hfail, rfl, hmade, hrefused⟩ := ih hsteps.2 (c.add p item)
      · exact .inl ⟨c', hok, .cons hv hmade⟩
      · exact .inr ⟨e, c', _, step, rest, hfail, rfl, .cons hv hmade, hrefused⟩
    · refine .inr ⟨e, c, [], (p, x), steps, ?_, rfl, .nil c, hrefused⟩
      rw [placeAll, Action.forEach, Action.bind_apply, hplace]

theorem fixedItem_eq_ok {t : ElementType X} {config : DatasetConfig} {item : Item X}
    (h : fixedItem t config = .ok item) :
    ∃ store, item = .dataset t store ∧ ∀ path, Dataset.New ⟨path, store⟩ := by
  obtain ⟨shape, hshape, h⟩ := Outcome.bind_eq_ok.mp h
  obtain ⟨layout, hlayout, h⟩ := Outcome.bind_eq_ok.mp h
  obtain ⟨store, hstore, h⟩ := Outcome.bind_eq_ok.mp h
  exact ⟨store, (Outcome.ok.inj h).symm, fun path => .fixed hshape hlayout hstore⟩

theorem growingItem_eq_ok {t : ElementType X} {path : String} {chunkLen : Option UInt64} {level : UInt8} {item : Item X}
    (h : growingItem t path chunkLen level = .ok item) :
    ∃ store, item = .dataset t store ∧ store.extensible = true ∧ ∀ path, Dataset.New ⟨path, store⟩ := by
  obtain ⟨⟨⟩, hlen, h⟩ := Outcome.bind_eq_ok.mp h
  obtain ⟨layout, hlayout, h⟩ := Outcome.bind_eq_ok.mp h
  obtain ⟨shape, hshape, h⟩ := Outcome.bind_eq_ok.mp h
  obtain ⟨store, hstore, h⟩ := Outcome.bind_eq_ok.mp h
  have hne : chunkLen.getD defaultChunkLen ≠ 0 := Outcome.require_eq_ok.mp hlen
  exact ⟨store, (Outcome.ok.inj h).symm, Store.extensible_create hstore,
    fun path => .growing hne hlayout hshape hstore⟩

end Catalog

/-! ## Contents of a new array -/

theorem writeElements_paths {d : Dataset Pointer} (hd : d.store.Sound) {heap : Dataset UInt8} (hh : heap.Grows)
    (o : WriteOptions) (contents : List (List UInt8)) :
    (writeElements Sink.dataset o contents (d, heap)).2.1.path = d.path ∧
      (writeElements Sink.dataset o contents (d, heap)).2.2.path = heap.path := by
  constructor
  · obtain ⟨-, hended⟩ := writeElements_ended Sink.dataset_over hd hh o contents
    exact hended.path
  · by_cases hcount : contents.length = d.size
    · have hkeeps := Sink.dataset_over.holds.keeping fun (e : Dataset UInt8) new (h : e.path = heap.path) =>
        (Dataset.path_append new e).trans h
      have hword : (id heap).elements.length < 2 ^ 64 := by
        rw [Dataset.length_elements]
        exact hh.size_lt
      obtain ⟨⟨-, hpath⟩, -⟩ := HeapWriter.write_holds hkeeps o.flushThreshold.toNat contents ⟨hh, rfl⟩ hword trivial
      rw [writeElements_of_count heap o hcount]
      revert hpath
      rcases HeapWriter.write Sink.dataset o.flushThreshold.toNat contents heap with ⟨x, heap'⟩
      cases x <;> exact id
    · obtain ⟨e, hfail⟩ := writeElements_of_miscount (S := Sink.dataset) heap o hcount
      rw [hfail]

namespace StoredArray

open Catalog

/-- What an array consists of, and where it lies in its group. -/
def members (group : String) (s : Shape) (o : WriteOptions) : List (Path × Outcome (Item X)) :=
  [(Path.ofString group ++ ["pointers"], fixedItem .pointer (o.pointerConfig s)),
   (Path.ofString group ++ ["heap"],
      growingItem .byte (Path.child (Path.trimSlashes group) "heap") o.heapChunkLen o.compressionLevel)]

def steps (c : Catalog X) (group : String) (s : Shape) (o : WriteOptions) : List (Path × Outcome (Item X)) :=
  if c.groupExists (Path.ofString group) then members group s o
  else (Path.ofString group, .ok .group) :: members group s o

omit [Elements X] in
def inGroup (group : String) : StoredArray X :=
  ⟨Path.trimSlashes group, ⟨Path.ofString group ++ ["pointers"]⟩, ⟨Path.ofString group ++ ["heap"]⟩⟩

theorem create_eq (c : Catalog X) (group : String) (s : Shape) (o : WriteOptions) :
    create group s o c = (do placeAll (steps c group s o); return inGroup group : Action (Catalog X) _) c := by
  have hpointers := Path.ofString_member group (show "pointers" ≠ "" by decide) (by decide)
  have hheap := Path.ofString_member group (show "heap" ≠ "" by decide) (by decide)
  have hgroup : c.hasGroup (Path.trimSlashes group) = c.groupExists (Path.ofString group) := by
    rw [hasGroup, Path.ofString_trimSlashes]
  unfold create
  rw [Action.bind_of_ok (x := c) rfl]
  simp only [hgroup, createGroup_eq, createDataset_eq, createExtensible_eq, hpointers, hheap, Path.ofString_trimSlashes,
    bind_assoc, pure_bind]
  cases hexists : c.groupExists (Path.ofString group) with
  | true =>
    simp only [steps, hexists, if_true, members, placeAll_cons, placeAll_nil, bind_assoc, pure_bind]
    rfl
  | false =>
    simp only [steps, hexists, Bool.false_eq_true, if_false, not_false_eq_true, if_true, members, placeAll_cons,
      placeAll_nil, bind_assoc, pure_bind]
    rfl

theorem steps_ne_trap (c : Catalog X) (group : String) (s : Shape) (o : WriteOptions) :
    ∀ step ∈ steps c group s o, step.2 ≠ .trap := by
  have hmembers : ∀ step ∈ members (X := X) group s o, step.2 ≠ .trap := by
    simp [members, fixedItem_ne_trap, growingItem_ne_trap]
  unfold steps
  split
  · exact hmembers
  · rw [List.forall_mem_cons]
    exact ⟨nofun, hmembers⟩

theorem create_cases (c : Catalog X) (group : String) (s : Shape) (o : WriteOptions) :
    (∃ c', create group s o c = (.ok (inGroup group), c') ∧ Made c (steps c group s o) c') ∨
      ∃ e c' done step rest, create group s o c = (.fail e, c') ∧ steps c group s o = done ++ step :: rest ∧
        Made c done c' ∧ c'.Refused step.1 step.2 := by
  rw [create_eq]
  obtain ⟨c', hok, hmade⟩ | ⟨e, c', done, step, rest, hfail, hsteps, hmade, hrefused⟩ :=
    placeAll_cases (steps_ne_trap c group s o) c
  · left
    refine ⟨c', ?_, hmade⟩
    rw [Action.bind_apply, hok]
    rfl
  · right
    refine ⟨e, c', done, step, rest, ?_, hsteps, hmade, hrefused⟩
    rw [Action.bind_apply, hfail]

theorem create_refused {c : Catalog X} {group : String} (hgroup : c.groupExists (Path.ofString group) = true)
    (hpointers : Path.ofString group ++ ["pointers"] ∈ c.keys) (s : Shape) (o : WriteOptions) :
    ∃ e, create group s o c = (.fail e, c) := by
  obtain ⟨c', -, hmade⟩ | ⟨e, c', done, step, rest, hfail, hsteps, hmade, -⟩ := create_cases c group s o
  · rw [steps, if_pos hgroup, members] at hmade
    obtain ⟨item, -, hv, -⟩ := hmade.of_cons
    exact absurd hpointers hv.fresh
  · cases done with
    | nil =>
      obtain rfl := hmade.eq_iff_nil.mpr rfl
      exact ⟨e, hfail⟩
    | cons first done =>
      rw [steps, if_pos hgroup, members, List.cons_append, List.cons.injEq] at hsteps
      obtain ⟨rfl, -⟩ := hsteps
      obtain ⟨item, -, hv, -⟩ := hmade.of_cons
      exact absurd hpointers hv.fresh

theorem entries_of_made {c c' : Catalog X} {group : String} {s : Shape} {o : WriteOptions}
    (h : Made c (members group s o) c') :
    ∃ (d : Dataset Pointer) (heap : Dataset UInt8), d.New ∧ heap.New ∧ heap.store.extensible = true ∧
      d.path = Path.ofString group ++ ["pointers"] ∧ heap.path = Path.ofString group ++ ["heap"] ∧
      d.path ∉ c.entries.map Entry.path ∧ heap.path ∉ c.entries.map Entry.path ∧
      c'.entries = ⟨.byte, heap⟩ :: ⟨.pointer, d⟩ :: c.entries := by
  obtain ⟨item, hitem, hv, h⟩ := h.of_cons
  obtain ⟨store, rfl, hnew⟩ := fixedItem_eq_ok hitem
  obtain ⟨item, hitem, hv', h⟩ := h.of_cons
  obtain ⟨store', rfl, hext, hnew'⟩ := growingItem_eq_ok hitem
  cases h
  have hfresh := mt (fun h => mem_keys.mpr (.inr h)) hv.fresh
  have hfresh' := mt (fun h => mem_keys.mpr (.inr h)) hv'.fresh
  refine ⟨⟨_, store⟩, ⟨_, store'⟩, hnew _, hnew' _, hext, rfl, rfl, hfresh, ?_, rfl⟩
  exact fun h => hfresh' (List.mem_cons_of_mem _ h)

theorem datasets_of_made {c c' : Catalog X} {group : String} {s : Shape} {o : WriteOptions}
    (h : Made c (steps c group s o) c') :
    ∃ (d : Dataset Pointer) (heap : Dataset UInt8), c'.dataset? (inGroup group).pointers = some d ∧
      c'.dataset? (inGroup group).heap = some heap ∧ d.New ∧ heap.New ∧ heap.store.extensible = true ∧
      d.path ∉ c.entries.map Entry.path ∧ heap.path ∉ c.entries.map Entry.path ∧ c.entries <:+ c'.entries := by
  -- a group that had to be made first brings no dataset
  obtain ⟨c₀, hentries, hmade⟩ : ∃ c₀ : Catalog X, c₀.entries = c.entries ∧ Made c₀ (members group s o) c' := by
    unfold steps at h
    split at h
    · exact ⟨c, rfl, h⟩
    · obtain ⟨item, hitem, -, h⟩ := h.of_cons
      obtain rfl := Outcome.ok.inj hitem
      exact ⟨c.add (Path.ofString group) .group, rfl, h⟩
  obtain ⟨d, heap, hd, hheap, hext, hpath, hpath', hfresh, hfresh', hadded⟩ := entries_of_made hmade
  rw [hentries] at hfresh hfresh' hadded
  refine ⟨d, heap, ?_, ?_, hd, hheap, hext, hfresh, hfresh', h.suffix.2⟩
  · rw [dataset?_eq_some, entry?, hadded]
    simp [inGroup, hpath, hpath']
  · rw [dataset?_eq_some, entry?, hadded]
    simp [inGroup, hpath']

theorem write_eq {a : StoredArray X} {c : Catalog X} {d : Dataset Pointer} {heap : Dataset UInt8}
    (hd : c.dataset? a.pointers = some d) (hheap : c.dataset? a.heap = some heap) (o : WriteOptions)
    (contents : List (List UInt8)) :
    a.write o contents c =
      let (x, d', heap') := writeElements Sink.dataset o contents (d, heap)
      (x, put (t := .byte) (put (t := .pointer) c d') heap') := by
  simp only [write, Handle.actWith, hd, hheap]

theorem write_created {c c' : Catalog X} {group : String} {s : Shape} {o : WriteOptions}
    (h : Made c (steps c group s o) c') (contents : List (List UInt8)) :
    let c'' := ((inGroup group).write o contents c').2
    c''.groups = c'.groups ∧ c''.keys = c'.keys ∧ c.entries <:+ c''.entries := by
  obtain ⟨d, heap, hpointers, hbytes, hd, hheap, hext, hfresh, hfresh', hsuffix⟩ := datasets_of_made h
  obtain ⟨hkeep, hkeep'⟩ := writeElements_paths hd.shows.sound (hheap.grows hext) o contents
  rw [write_eq hpointers hbytes]
  refine ⟨rfl, ?_, suffix_put (suffix_put hsuffix (hkeep ▸ hfresh)) (hkeep' ▸ hfresh')⟩
  simp only [keys, paths_put]
  rfl

theorem create_eq_fail {c c' : Catalog X} {group : String} {s : Shape} {o : WriteOptions} {e : Error}
    (h : create group s o c = (.fail e, c')) :
    ∃ done step rest, steps c group s o = done ++ step :: rest ∧ Made c done c' ∧ c'.Refused step.1 step.2 := by
  obtain ⟨c₁, hok, -⟩ | ⟨e₁, c₁, done, step, rest, hfail, hsteps, hmade, hrefused⟩ := create_cases c group s o
  · rw [hok] at h
    cases h
  · rw [hfail] at h
    cases h
    exact ⟨done, step, rest, hsteps, hmade, hrefused⟩

theorem createWritten_of_count {s : Shape} {contents : List (List UInt8)} (hcount : contents.length = s.size)
    (group : String) (o : WriteOptions) :
    createWritten (X := X) group s o contents = (do
      let a ← create group s o
      a.write o contents
      return a) := by
  have hcheck : checkElementCount s contents.length = .ok () := if_pos hcount
  rw [createWritten, hcheck, Action.lift_ok_bind]

theorem createWritten_eq_fail {c c' : Catalog X} {group : String} {s : Shape} {o : WriteOptions}
    {contents : List (List UInt8)} {e : Error} (hcount : contents.length = s.size)
    (h : createWritten group s o contents c = (.fail e, c')) :
    create group s o c = (.fail e, c') ∨
      ∃ c₁, create group s o c = (.ok (inGroup group), c₁) ∧ Made c (steps c group s o) c₁ ∧
        (inGroup group).write o contents c₁ = (.fail e, c') := by
  rw [createWritten_of_count hcount, Action.bind_apply] at h
  obtain ⟨c₁, hok, hmade⟩ | ⟨e₁, c₁, -, -, -, hfail, -⟩ := create_cases c group s o
  · refine .inr ⟨c₁, hok, hmade, ?_⟩
    rw [hok] at h
    dsimp only at h
    rw [Action.bind_apply] at h
    rcases hwrite : (inGroup group).write o contents c₁ with ⟨x, c₂⟩
    rw [hwrite] at h
    cases x with
    | ok => cases h
    | fail =>
      cases h
      rfl
    | trap => cases h
  · rw [hfail] at h ⊢
    exact .inl h

/-- A creation that fails leaves what its steps before the refused one made. So nothing is left exactly if the first
step is refused, and pointers that are left refuse every further attempt, whatever is asked for. What was there before
stays as it was. If contents come along, nothing is made where their number is wrong, and where they cannot be written
all of the new array is left. -/
theorem failed_creation_leaves (c : Catalog X) (group : String) (s : Shape) (o : WriteOptions) :
    (create group s o c).1 ≠ .trap ∧
    (∀ e c', create group s o c = (.fail e, c') → ∃ done step rest,
      steps c group s o = done ++ step :: rest ∧ Made c done c' ∧ c'.Refused step.1 step.2 ∧
      c.groups <:+ c'.groups ∧ c.entries <:+ c'.entries ∧ c'.keys.Perm (done.map Prod.fst ++ c.keys) ∧
      (c' = c ↔ done = []) ∧
      (Path.ofString group ++ ["pointers"] ∈ done.map Prod.fst →
        ∀ s' o', ∃ e', create group s' o' c' = (.fail e', c'))) ∧
    ∀ contents e c', createWritten group s o contents c = (.fail e, c') →
      (contents.length ≠ s.size → c' = c) ∧
      (contents.length = s.size → create group s o c = (.fail e, c') ∨
        ∃ c₁, create group s o c = (.ok (inGroup group), c₁) ∧
          (inGroup group).write o contents c₁ = (.fail e, c') ∧
          c.groups <:+ c'.groups ∧ c.entries <:+ c'.entries ∧
          c'.keys.Perm ((steps c group s o).map Prod.fst ++ c.keys)) := by
  refine ⟨?_, ?_, ?_⟩
  · obtain ⟨c', hok, -⟩ | ⟨e, c', -, -, -, hfail, -⟩ := create_cases c group s o
    · rw [hok]
      nofun
    · rw [hfail]
      nofun
  · intro e c' hcreate
    obtain ⟨done, step, rest, hsteps, hmade, hrefused⟩ := create_eq_fail hcreate
    refine ⟨done, step, rest, hsteps, hmade, hrefused, hmade.suffix.1, hmade.suffix.2, hmade.keys,
      hmade.eq_iff_nil, fun hpointers s' o' => ?_⟩
    obtain ⟨hkey, hparent⟩ := hmade.nested hpointers
    have hgroup : (Path.ofString group ++ ["pointers"]).parent = Path.ofString group := List.dropLast_concat
    exact create_refused (hgroup ▸ hparent) hkey s' o'
  · intro contents e c' hcreate
    constructor
    · intro hcount
      have hcheck : checkElementCount s contents.length = .fail _ := if_neg hcount
      rw [createWritten, hcheck] at hcreate
      exact (congrArg Prod.snd hcreate).symm
    · intro hcount
      obtain hfail | ⟨c₁, hok, hmade, hwrite⟩ := createWritten_eq_fail hcount hcreate
      · exact .inl hfail
      · have hc := write_created hmade contents
        rw [hwrite] at hc
        obtain ⟨hgroups, hkeys, hentries⟩ := hc
        refine .inr ⟨c₁, hok, hwrite, ?_, hentries, ?_⟩
        · rw [hgroups]
          exact hmade.suffix.1
        · rw [hkeys]
          exact hmade.keys

theorem failed_creation_leaves_pointers :
    let o : WriteOptions := { heapChunkLen := some 0 }
    let start : Catalog := empty
    let r := create "g" (Shape.rowMajor [1]) o start
    r.1 = .fail (.invalidArgument "extensible dataset 'g/heap' needs a non-zero chunk length") ∧
    r.2.keys = [["g"], ["g", "pointers"]] ∧
    (∃ done step rest, steps start "g" (Shape.rowMajor [1]) o = done ++ step :: rest ∧
      r.2.keys.Perm (done.map Prod.fst ++ start.keys) ∧ (r.2 = start ↔ done = [])) ∧
    (createWritten "g" (Shape.rowMajor [1]) o [[7], [8]] start).2 = start := by
  intro o start r
  obtain ⟨-, hcreate, hwritten⟩ := failed_creation_leaves start "g" (Shape.rowMajor [1]) o
  have hfail : r.1 = .fail (.invalidArgument "extensible dataset 'g/heap' needs a non-zero chunk length") := by decide
  have hcount : (createWritten "g" (Shape.rowMajor [1]) o [[7], [8]] start).1 =
      .fail (.shapeMismatch "1 elements for array [1]" "2 elements") := by decide
  obtain ⟨done, step, rest, hsteps, -, -, -, -, hkeys, hsame, -⟩ := hcreate _ r.2 (Prod.ext hfail rfl)
  obtain ⟨hnone, -⟩ := hwritten [[7], [8]] _ _ (Prod.ext hcount rfl)
  exact ⟨hfail, by decide, ⟨done, step, rest, hsteps, hkeys, hsame⟩, hnone (by decide)⟩

/-- A creation that fails and changes the container: the group and its pointers are there after it, and the same
creation with a heap that can be had, which would have succeeded, fails. -/
theorem creation_not_undone :
    let o : WriteOptions := { heapChunkLen := some 0 }
    let start : Catalog := empty
    let c := (create "g" (Shape.rowMajor [1]) o start).2
    (create "g" (Shape.rowMajor [1]) o start).1 =
      .fail (.invalidArgument "extensible dataset 'g/heap' needs a non-zero chunk length") ∧
    start.hasGroup "g" = false ∧ c.hasGroup "g" = true ∧
    start.datasetPaths = [] ∧ c.datasetPaths = ["g/pointers"] ∧
    (create "g" (Shape.rowMajor [1]) {} start).1 = .ok (inGroup "g") ∧
    (create "g" (Shape.rowMajor [1]) {} c).1 = .fail (.invalidArgument "'g/pointers' already exists") := by
  decide

end StoredArray

end Ragged

import Mathlib.Data.List.Nodup
import Mathlib.Data.List.Perm.Basic
import Ragged.Catalog
import Ragged.Proofs.Handles
import Ragged.Proofs.Paths

/-!
# The hierarchy of a catalog

Whatever is created is put at a vacant path: one that names no group and no dataset yet, in a group that is there. So
groups and datasets stay a tree over the root, whatever calls are made in which order and however their paths are
written.
-/

namespace Ragged

theorem Shape.ofDims_ne_trap (dims : List Nat) : ofDims dims ≠ .trap := by
  unfold ofDims
  split <;> nofun

theorem DatasetConfig.shape_ne_trap (config : DatasetConfig) : config.shape ≠ .trap := by
  unfold shape
  split
  · nofun
  · exact Shape.ofDims_ne_trap _

theorem DatasetConfig.layout_ne_trap (config : DatasetConfig) : config.layout ≠ .trap := by
  unfold layout
  dsimp only
  repeat' split
  all_goals nofun

theorem Store.create_ne_trap {α : Type} (shape : Shape) (layout : Layout) (extensible : Bool) :
    create (α := α) shape layout extensible ≠ .trap :=
  Outcome.bind_ne_trap (Outcome.require_ne_trap _ _) fun _ =>
    Outcome.bind_ne_trap (Shape.ofDims_ne_trap _) fun _ => nofun

namespace Catalog

variable {X : Type} [Elements X]

theorem extensibleLayout_ne_trap (chunkLen : UInt64) (level : UInt8) : extensibleLayout chunkLen level ≠ .trap := by
  apply Outcome.bind_ne_trap (DatasetConfig.layout_ne_trap _)
  intro layout
  cases layout <;> nofun

/-! ## Vacant paths -/

def keys (c : Catalog X) : List Path := c.groups ++ c.entries.map Entry.path

structure Vacant (c : Catalog X) (p : Path) : Prop where
  proper : p ≠ []
  parent : p.parent = [] ∨ p.parent ∈ c.groups
  fresh : p ∉ c.keys

theorem groupExists_iff {c : Catalog X} {p : Path} : c.groupExists p = true ↔ p = [] ∨ p ∈ c.groups := by
  simp [groupExists]

theorem entry?_eq_none {c : Catalog X} {p : Path} : c.entry? p = none ↔ p ∉ c.entries.map Entry.path := by
  unfold entry?
  simp

theorem mem_keys {c : Catalog X} {p : Path} : p ∈ c.keys ↔ p ∈ c.groups ∨ p ∈ c.entries.map Entry.path :=
  List.mem_append

theorem fresh_iff {c : Catalog X} {p : Path} :
    (¬ c.groups.contains p = true ∧ (c.entry? p).isNone = true) ↔ p ∉ c.keys := by
  rw [mem_keys, not_or, Option.isNone_iff_eq_none, entry?_eq_none, List.contains_iff_mem]

theorem checkVacant_cases (c : Catalog X) (p : Path) :
    c.Vacant p ∧ c.checkVacant p = .ok () ∨ ¬ c.Vacant p ∧ ∃ e, c.checkVacant p = .fail e := by
  unfold checkVacant Outcome.require
  by_cases hp : p ≠ []
  · by_cases hparent : c.groupExists p.parent = true
    · by_cases hfresh : p ∉ c.keys
      · left
        rw [if_pos hp, if_pos hparent, if_pos (fresh_iff.mpr hfresh)]
        exact ⟨⟨hp, groupExists_iff.mp hparent, hfresh⟩, rfl⟩
      · right
        rw [if_pos hp, if_pos hparent, if_neg (mt fresh_iff.mp hfresh)]
        exact ⟨fun h => hfresh h.fresh, _, rfl⟩
    · right
      rw [if_pos hp, if_neg hparent]
      exact ⟨fun h => hparent (groupExists_iff.mpr h.parent), _, rfl⟩
  · right
    rw [if_neg hp]
    exact ⟨fun h => hp h.proper, _, rfl⟩

/-! ## What is created -/

inductive Item (X : Type) [Elements X] where
  | group
  | dataset (t : ElementType X) (store : Store t.Carrier)

def add (c : Catalog X) (p : Path) : Item X → Catalog X
  | .group => { c with groups := p :: c.groups }
  | .dataset t store => { c with entries := ⟨t, ⟨p, store⟩⟩ :: c.entries }

def fixedItem (t : ElementType X) (config : DatasetConfig) : Outcome (Item X) := do
  let shape ← config.shape
  let layout ← config.layout
  let store ← Store.create shape layout false
  return .dataset t store

def growingItem (t : ElementType X) (path : String) (chunkLen : Option UInt64) (level : UInt8) : Outcome (Item X) := do
  let chunkLen := chunkLen.getD defaultChunkLen
  Outcome.require (chunkLen ≠ 0)
    (.invalidArgument s!"extensible dataset '{path}' needs a non-zero chunk length")
  let layout ← extensibleLayout chunkLen level
  let shape ← Shape.ofDims [0]
  let store ← Store.create shape layout true
  return .dataset t store

theorem fixedItem_ne_trap (t : ElementType X) (config : DatasetConfig) : fixedItem t config ≠ .trap :=
  Outcome.bind_ne_trap config.shape_ne_trap fun _ => Outcome.bind_ne_trap config.layout_ne_trap fun _ =>
    Outcome.bind_ne_trap (Store.create_ne_trap _ _ _) fun _ => nofun

theorem growingItem_ne_trap (t : ElementType X) (path : String) (chunkLen : Option UInt64) (level : UInt8) :
    growingItem t path chunkLen level ≠ .trap :=
  Outcome.bind_ne_trap (Outcome.require_ne_trap _ _) fun _ =>
    Outcome.bind_ne_trap (extensibleLayout_ne_trap _ _) fun _ =>
      Outcome.bind_ne_trap (Shape.ofDims_ne_trap _) fun _ =>
        Outcome.bind_ne_trap (Store.create_ne_trap _ _ _) fun _ => nofun

def place (p : Path) (x : Outcome (Item X)) : Action (Catalog X) Unit :=
  Action.step fun c => do
    let item ← x
    c.checkVacant p
    return c.add p item

theorem place_bind {α : Type} (p : Path) (x : Outcome α) (f : α → Outcome (Item X)) :
    place p (x >>= f) = (do let a ← x; place p (f a)) := by
  cases x with
  | ok a => rfl
  | fail e => rfl
  | trap => rfl

theorem createGroup_eq (path : String) : createGroup (X := X) path = place (Path.ofString path) (.ok .group) := rfl

theorem insert_eq (t : ElementType X) (path : String) (store : Store t.Carrier) :
    insert t path store = (do
      place (Path.ofString path) (.ok (.dataset t store))
      return ⟨Path.ofString path⟩) := rfl

theorem createDataset_eq (t : ElementType X) (path : String) (config : DatasetConfig) :
    createDataset t path config = (do
      place (Path.ofString path) (fixedItem t config)
      return ⟨Path.ofString path⟩) := by
  simp only [createDataset, fixedItem, place_bind, bind_assoc, insert_eq, Outcome.pure_eq]

theorem createExtensible_eq (t : ElementType X) (path : String) (chunkLen : Option UInt64) (level : UInt8) :
    createExtensible t path chunkLen level = (do
      place (Path.ofString path) (growingItem t path chunkLen level)
      return ⟨Path.ofString path⟩) := by
  simp only [createExtensible, growingItem, place_bind, bind_assoc, insert_eq, Outcome.pure_eq]

/-! ## Putting items -/

/-- Nothing is put at a path: what was asked for cannot be had, or the path is not vacant. -/
def Refused (c : Catalog X) (p : Path) (x : Outcome (Item X)) : Prop := ∀ item, x = .ok item → ¬ c.Vacant p

theorem place_cases {x : Outcome (Item X)} (hx : x ≠ .trap) (p : Path) (c : Catalog X) :
    (∃ item, x = .ok item ∧ c.Vacant p ∧ place p x c = (.ok (), c.add p item)) ∨
      c.Refused p x ∧ ∃ e, place p x c = (.fail e, c) := by
  unfold place Action.step
  cases x with
  | ok item =>
    obtain ⟨hv, hcheck⟩ | ⟨hv, e, hcheck⟩ := checkVacant_cases c p
    · exact .inl ⟨item, rfl, hv, by simp [hcheck]⟩
    · exact .inr ⟨fun _ _ => hv, e, by simp [hcheck]⟩
  | fail e => exact .inr ⟨nofun, e, rfl⟩
  | trap => exact absurd rfl hx

theorem keys_add (c : Catalog X) (p : Path) (item : Item X) : (c.add p item).keys.Perm (p :: c.keys) := by
  cases item with
  | group => exact List.Perm.refl _
  | dataset t store => exact List.perm_middle

theorem suffix_add (c : Catalog X) (p : Path) (item : Item X) :
    c.groups <:+ (c.add p item).groups ∧ c.entries <:+ (c.add p item).entries := by
  cases item with
  | group => exact ⟨List.suffix_cons _ _, List.suffix_rfl⟩
  | dataset t store => exact ⟨List.suffix_rfl, List.suffix_cons _ _⟩

/-! ## Calls -/

inductive Call (X : Type) where
  | createGroup (path : String)
  | createDataset (t : ElementType X) (path : String) (config : DatasetConfig)
  | createExtensible (t : ElementType X) (path : String) (chunkLen : Option UInt64) (level : UInt8)
  | openDataset (t : ElementType X) (path : String)

namespace Call

omit [Elements X] in
def path : Call X → Path
  | createGroup path => .ofString path
  | createDataset _ path _ => .ofString path
  | createExtensible _ path _ _ => .ofString path
  | openDataset _ path => .ofString path

def item? : Call X → Option (Outcome (Item X))
  | createGroup _ => some (.ok .group)
  | createDataset t _ config => some (fixedItem t config)
  | createExtensible t path chunkLen level => some (growingItem t path chunkLen level)
  | openDataset _ _ => none

end Call

def perform : Call X → Action (Catalog X) Unit
  | .createGroup path => createGroup path
  | .createDataset t path config => do
    let _ ← createDataset t path config
    return
  | .createExtensible t path chunkLen level => do
    let _ ← createExtensible t path chunkLen level
    return
  | .openDataset t path => do
    let _ ← Action.view fun c => c.openDataset t path
    return

theorem perform_of_item {call : Call X} {x : Outcome (Item X)} (h : call.item? = some x) :
    perform call = place call.path x ∧ x ≠ .trap := by
  cases call with
  | createGroup path =>
    obtain rfl := Option.some.inj h
    exact ⟨rfl, nofun⟩
  | createDataset t path config =>
    obtain rfl := Option.some.inj h
    refine ⟨?_, fixedItem_ne_trap t config⟩
    simp only [perform, createDataset_eq, bind_assoc, pure_bind]
    exact bind_pure _
  | createExtensible t path chunkLen level =>
    obtain rfl := Option.some.inj h
    refine ⟨?_, growingItem_ne_trap t path chunkLen level⟩
    simp only [perform, createExtensible_eq, bind_assoc, pure_bind]
    exact bind_pure _
  | openDataset t path => cases h

/-- All that a call can do. -/
inductive Performed (c : Catalog X) (call : Call X) : Outcome Unit → Catalog X → Prop
  | refused (e : Error) : Performed c call (.fail e) c
  | created {item : Item X} (hitem : call.item? = some (.ok item)) (hv : c.Vacant call.path) :
      Performed c call (.ok ()) (c.add call.path item)
  | opened (hitem : call.item? = none) (hentry : (c.entry? call.path).isSome = true) : Performed c call (.ok ()) c

theorem perform_cases (call : Call X) (c : Catalog X) : Performed c call (perform call c).1 (perform call c).2 := by
  cases hx : call.item? with
  | some x =>
    obtain ⟨hperform, htrap⟩ := perform_of_item hx
    rw [hperform]
    obtain ⟨item, rfl, hv, hplace⟩ | ⟨-, e, hplace⟩ := place_cases htrap call.path c
    · rw [hplace]
      exact .created hx hv
    · rw [hplace]
      exact .refused e
  | none =>
    cases call with
    | openDataset t path =>
      -- a view leaves the catalog as it is, whether it finds a dataset of the type or not
      simp only [perform, Action.bind_apply, Action.view, openDataset]
      cases he : c.entry? (Path.ofString path) with
      | none => exact .refused _
      | some e =>
        simp only [Outcome.ofOption, Outcome.ok_bind]
        cases e.as? t with
        | none => exact .refused _
        | some d => exact .opened rfl (by rw [Call.path, he]; rfl)
    | _ => cases hx

/-! ## The tree -/

structure Hierarchy (c : Catalog X) : Prop where
  apart : c.keys.Nodup
  named : ∀ p ∈ c.keys, p ≠ [] ∧ p.Normal
  nested : ∀ p ∈ c.keys, p.parent = [] ∨ p.parent ∈ c.groups

theorem hierarchy_empty : Hierarchy (X := X) empty where
  apart := List.nodup_nil
  named := nofun
  nested := nofun

theorem Hierarchy.no_entry {c : Catalog X} (h : c.Hierarchy) {p : Path} (hp : c.groupExists p = true) :
    c.entry? p = none := by
  rw [entry?_eq_none]
  intro hentry
  rcases groupExists_iff.mp hp with rfl | hgroup
  · exact (h.named [] (mem_keys.mpr (.inr hentry))).1 rfl
  · exact (List.nodup_append.mp h.apart).2.2 p hgroup p hentry rfl

theorem Hierarchy.add {c : Catalog X} (h : c.Hierarchy) {p : Path} (hp : p.Normal) (hv : c.Vacant p) (item : Item X) :
    (c.add p item).Hierarchy := by
  have hmem : ∀ q, q ∈ (c.add p item).keys ↔ q = p ∨ q ∈ c.keys := by
    intro q
    rw [(keys_add c p item).mem_iff, List.mem_cons]
  -- the groups that held something before still do
  have hgroups := (suffix_add c p item).1.subset
  refine ⟨(keys_add c p item).nodup_iff.mpr (List.nodup_cons.mpr ⟨hv.fresh, h.apart⟩), ?_, ?_⟩
  · intro q hq
    rcases (hmem q).mp hq with rfl | hq
    · exact ⟨hv.proper, hp⟩
    · exact h.named q hq
  · intro q hq
    rcases (hmem q).mp hq with rfl | hq
    · exact hv.parent.imp_right fun hparent => hgroups hparent
    · exact (h.nested q hq).imp_right fun hparent => hgroups hparent

omit [Elements X] in
theorem Call.normal_path (call : Call X) : call.path.Normal := by
  cases call <;> exact Path.normal_ofString _

section
variable {c c' : Catalog X} {call : Call X} {x : Outcome Unit} (h : Performed c call x c')
include h

theorem Performed.hierarchy (hc : c.Hierarchy) : c'.Hierarchy := by
  cases h with
  | refused e => exact hc
  | created hitem hv => exact hc.add call.normal_path hv _
  | opened => exact hc

theorem Performed.ne_trap : x ≠ .trap := by
  cases h <;> nofun

theorem Performed.of_fail {e : Error} (hx : x = .fail e) : c' = c := by
  cases h with
  | refused => rfl
  | created | opened => cases hx

theorem Performed.of_opened (hx : x = .ok ()) (hitem : call.item? = none) : c' = c := by
  cases h with
  | refused | opened => rfl
  | created hmade =>
    rw [hitem] at hmade
    cases hmade

theorem Performed.of_created {y : Outcome (Item X)} (hx : x = .ok ()) (hitem : call.item? = some y) :
    c.Vacant call.path ∧ ∃ item, y = .ok item ∧ c' = c.add call.path item := by
  cases h with
  | refused => cases hx
  | created hmade hv => exact ⟨hv, _, Option.some.inj (hitem.symm.trans hmade), rfl⟩
  | opened hnone =>
    rw [hitem] at hnone
    cases hnone

theorem Performed.suffix : c.groups <:+ c'.groups ∧ c.entries <:+ c'.entries := by
  cases h with
  | refused e => exact ⟨List.suffix_rfl, List.suffix_rfl⟩
  | created hitem hv => exact suffix_add c call.path _
  | opened => exact ⟨List.suffix_rfl, List.suffix_rfl⟩

end

theorem hierarchy_each (calls : List (Call X)) {c : Catalog X} (h : c.Hierarchy) :
    (Action.each perform calls c).2.Hierarchy :=
  Action.each_keeps (fun call c hc => (perform_cases call c).hierarchy hc) h calls

theorem suffix_each (calls : List (Call X)) (c : Catalog X) :
    c.groups <:+ (Action.each perform calls c).2.groups ∧ c.entries <:+ (Action.each perform calls c).2.entries := by
  have hstep : ∀ call c', c.groups <:+ c'.groups ∧ c.entries <:+ c'.entries →
      c.groups <:+ (perform call c').2.groups ∧ c.entries <:+ (perform call c').2.entries := by
    intro call c' hc
    obtain ⟨hgroups, hentries⟩ := (perform_cases call c').suffix
    exact ⟨hc.1.trans hgroups, hc.2.trans hentries⟩
  exact Action.each_keeps hstep ⟨List.suffix_rfl, List.suffix_rfl⟩ calls

/-- However calls are made one after the other on an empty container, groups and datasets are a tree: each has a path of
its own, whose text is a proper path in its normal form, and lies in the root or in a group. Nothing that was created
goes away. A call that fails changes nothing, opening never does, and creating succeeds only at a path that was vacant,
which it takes and no other. -/
theorem hierarchy_well_formed (calls : List (Call X)) :
    let c : Catalog X := (Action.each perform calls empty).2
    c.keys.Nodup ∧ (∀ path, ¬ (c.hasGroup path = true ∧ c.hasDataset path = true)) ∧
    (∀ p ∈ c.keys, p ≠ [] ∧ (∀ part ∈ p, part ≠ "" ∧ '/' ∉ part.toList) ∧
      p.render ≠ "" ∧ Path.split p.render.toList = p.map String.toList ∧ Path.ofString p.render = p) ∧
    (∀ p ∈ c.keys, c.groupExists p.parent = true ∧ c.entry? p.parent = none) ∧
    (∀ more : List (Call X), c.groups <:+ (Action.each perform more c).2.groups ∧
      c.entries <:+ (Action.each perform more c).2.entries) ∧
    ∀ call : Call X, (perform call c).1 ≠ .trap ∧
      (∀ e, (perform call c).1 = .fail e → (perform call c).2 = c) ∧
      ((perform call c).1 = .ok () → call.item? = none → (perform call c).2 = c) ∧
      ∀ x, (perform call c).1 = .ok () → call.item? = some x →
        call.path ≠ [] ∧ call.path ∉ c.keys ∧ c.groupExists call.path.parent = true ∧
        ∃ item, x = .ok item ∧ (perform call c).2 = c.add call.path item ∧
          (perform call c).2.keys.Perm (call.path :: c.keys) := by
  intro c
  have hc : c.Hierarchy := hierarchy_each calls hierarchy_empty
  refine ⟨hc.apart, ?_, ?_, ?_, fun more => suffix_each more c, fun call => ?_⟩
  · rintro path ⟨hgroup, hdataset⟩
    rw [hasDataset, hc.no_entry hgroup] at hdataset
    cases hdataset
  · intro p hp
    obtain ⟨hproper, hnormal⟩ := hc.named p hp
    exact ⟨hproper, hnormal, Path.render_ne_empty hnormal hproper, Path.split_render hnormal hproper,
      Path.ofString_render hnormal⟩
  · intro p hp
    have hparent := groupExists_iff.mpr (hc.nested p hp)
    exact ⟨hparent, hc.no_entry hparent⟩
  · have hcall := perform_cases call c
    refine ⟨hcall.ne_trap, fun e => hcall.of_fail, hcall.of_opened, fun x hx hitem => ?_⟩
    obtain ⟨hv, item, hok, hadd⟩ := hcall.of_created hx hitem
    exact ⟨hv.proper, hv.fresh, groupExists_iff.mpr hv.parent, item, hok, hadd, hadd ▸ keys_add c call.path item⟩

theorem hierarchy_well_formed_two_spellings :
    let c : Catalog := (Action.each perform [.createGroup "//a/", .createGroup "a", .createGroup "a/b/c"] empty).2
    let call := Call.createDataset .byte "/a//b" { dimensions := [2] }
    c.keys = [["a"]] ∧ (perform call c).1 = .ok () ∧ (perform call c).2.keys.Perm [["a", "b"], ["a"]] := by
  intro c call
  have hok : (perform call c).1 = .ok () := by decide
  obtain ⟨-, -, -, -, -, hcalls⟩ :=
    hierarchy_well_formed (X := Empty) [.createGroup "//a/", .createGroup "a", .createGroup "a/b/c"]
  obtain ⟨-, -, -, item, -, -, hkeys⟩ := (hcalls call).2.2.2 _ hok rfl
  exact ⟨by decide, hok, hkeys⟩

end Catalog

end Ragged

import Ragged.Proofs.Access

/-!
# Access by reference

A container in which paths name numbered cells. A handle remembers the number of its cell and the layout that the
dataset had when the handle was made, and never looks at the names again. Such handles cannot be told from handles by
path.
-/

namespace Ragged

/-- What all references to one dataset lead to. -/
structure Cell (X : Type) [Elements X] where
  type : ElementType X
  store : Store type.Carrier

structure Ref where
  path : Path
  layout : Layout
  cell : Nat
deriving DecidableEq

structure Arena (X : Type) [Elements X] where
  groups : List Path
  nodes : List (Path × Nat)
  cells : List (Cell X)

variable {X : Type} [Elements X]

namespace Arena

def empty : Arena X := ⟨[], [], []⟩

def follow (a : Arena X) (p : Path) (i : Nat) : Option (Entry X) :=
  a.cells[i]?.map fun cell => ⟨cell.type, ⟨p, cell.store⟩⟩

def checkVacant (a : Arena X) (p : Path) : Outcome Unit := do
  Outcome.require (p ≠ []) (.invalidArgument "the root group already exists")
  Outcome.require (p.parent.isEmpty || a.groups.contains p.parent)
    (.invalidArgument s!"parent group '{p.parent.render}' of '{p.render}' does not exist")
  Outcome.require (¬ a.groups.contains p ∧ (a.nodes.lookup p).isNone) (.invalidArgument s!"'{p.render}' already exists")

def add (a : Arena X) (p : Path) : Catalog.Item X → Arena X
  | .group => { a with groups := p :: a.groups }
  | .dataset t store => { a with nodes := (p, a.cells.length) :: a.nodes, cells := a.cells ++ [⟨t, store⟩] }

def ref? (a : Arena X) (p : Path) : Catalog.Item X → Option Ref
  | .group => none
  | .dataset _ store => some ⟨p, store.layout, a.cells.length⟩

def place (p : Path) (x : Outcome (Catalog.Item X)) : Action (Arena X) (Option Ref) := fun a =>
  match (do let item ← x; a.checkVacant p; return item : Outcome (Catalog.Item X)) with
  | .ok item => (.ok (a.ref? p item), a.add p item)
  | .fail e => (.fail e, a)
  | .trap => (.trap, a)

def openDataset (a : Arena X) (t : ElementType X) (path : String) : Outcome Ref := do
  let p := Path.ofString path
  let i ← Outcome.ofOption (.invalidArgument s!"no dataset at '{p.render}'") (a.nodes.lookup p)
  let e ← Outcome.orTrap (a.follow p i)
  let d ← Outcome.ofOption (.invalidArgument s!"dataset '{p.render}' does not hold {t.name}") (e.as? t)
  return ⟨p, d.layout, i⟩

def request : Catalog.Call X → Action (Arena X) (Option Ref)
  | .createGroup path => place (.ofString path) (.ok .group)
  | .createDataset t path config => place (.ofString path) (Catalog.fixedItem t config)
  | .createExtensible t path chunkLen level => place (.ofString path) (Catalog.growingItem t path chunkLen level)
  | .openDataset t path => do return some (← Action.view fun a => a.openDataset t path)

def use (r : Ref) (op : Session.Use X) : Action (Arena X) (Session.Values X) := fun a =>
  match a.follow r.path r.cell with
  | none => (.trap, a)
  | some e =>
    let (x, d) := Dataset.perform (op e.type) e.dataset
    (do return ⟨e.type, ← x⟩, { a with cells := a.cells.set r.cell ⟨e.type, d.store⟩ })

def report (r : Ref) (a : Arena X) : Outcome (Report X) := do
  let e ← Outcome.orTrap (a.follow r.path r.cell)
  return { e.dataset.report with layout := r.layout }

end Arena

def Session.byReference : Access X (Arena X) Ref := ⟨Arena.request, Arena.use, Arena.report⟩

namespace Arena

/-- The container of the same groups and datasets, with no names or cells in between. -/
structure Shows (c : Catalog X) (a : Arena X) : Prop where
  groups : a.groups = c.groups
  entry : ∀ p, c.entry? p = (a.nodes.lookup p).bind (a.follow p)
  bound : ∀ p i, a.nodes.lookup p = some i → i < a.cells.length
  apart : ∀ p q i, a.nodes.lookup p = some i → a.nodes.lookup q = some i → p = q

structure Leads (c : Catalog X) (a : Arena X) (h : AnyHandle X) (r : Ref) : Prop where
  path : r.path = h.2.path
  node : a.nodes.lookup r.path = some r.cell
  dataset : ∃ d, c.dataset? h.2 = some d ∧ d.layout = r.layout

theorem shows_empty : Shows (X := X) .empty empty where
  groups := rfl
  entry _ := rfl
  bound := nofun
  apart := nofun

variable {c : Catalog X} {a : Arena X}

theorem Shows.follow (ha : Shows c a) {h : AnyHandle X} {r : Ref} (hr : Leads c a h r) :
    ∃ d, c.dataset? h.2 = some d ∧ d.layout = r.layout ∧ a.follow r.path r.cell = some ⟨h.1, d⟩ := by
  obtain ⟨d, hd, hlayout⟩ := hr.dataset
  refine ⟨d, hd, hlayout, ?_⟩
  rw [← Catalog.dataset?_eq_some.mp hd, ← hr.path, ha.entry, hr.node]
  rfl

theorem Shows.report (ha : Shows c a) {h : AnyHandle X} {r : Ref} (hr : Leads c a h r) :
    Session.byPath.report h c = Arena.report r a := by
  obtain ⟨d, hd, hlayout, hfollow⟩ := ha.follow hr
  rw [Session.report_byPath hd, Arena.report, hfollow, ← hlayout]
  rfl

/-! ## Use -/

theorem path_of_follow {p : Path} {i : Nat} {e : Entry X} (h : a.follow p i = some e) : e.path = p := by
  obtain ⟨cell, -, rfl⟩ := Option.map_eq_some_iff.mp h
  rfl

theorem follow_set {i : Nat} (hi : i < a.cells.length) (cell : Cell X) (p : Path) (j : Nat) :
    ({ a with cells := a.cells.set i cell } : Arena X).follow p j =
      if j = i then some ⟨cell.type, ⟨p, cell.store⟩⟩ else a.follow p j := by
  unfold follow
  dsimp only
  by_cases h : j = i
  · subst h
    rw [if_pos rfl, List.getElem?_set_self hi]
    rfl
  · rw [if_neg h, List.getElem?_set_ne (Ne.symm h)]

theorem Shows.use (ha : Shows c a) {h : AnyHandle X} {r : Ref} (hr : Leads c a h r) (op : Session.Use X) :
    (Session.byPath.use h op c).1 = (Arena.use r op a).1 ∧
      Shows (Session.byPath.use h op c).2 (Arena.use r op a).2 ∧
      ∀ k q, Leads c a k q → Leads (Session.byPath.use h op c).2 (Arena.use r op a).2 k q := by
  obtain ⟨d, hd, hlayout, hfollow⟩ := ha.follow hr
  have hcell : r.cell < a.cells.length := ha.bound _ _ hr.node
  have hdpath : d.path = r.path := by rw [Catalog.path_of_dataset? hd, hr.path]
  have hpath : (Dataset.perform (op h.1) d).2.path = r.path := (Dataset.path_perform (op h.1) d).trans hdpath
  have hsame := Dataset.layout_perform (op h.1) d
  rw [Session.use_byPath hd, Arena.use, hfollow]
  dsimp only
  generalize (Dataset.perform (op h.1) d).2 = d' at hpath hsame
  refine ⟨rfl, ⟨ha.groups, ?_, ?_, ha.apart⟩, ?_⟩
  · intro p
    rw [Catalog.entry?_put, ha.entry]
    cases hnode : a.nodes.lookup p with
    | none => rfl
    | some i =>
      simp only [Option.bind_some]
      rw [follow_set hcell]
      by_cases hi : i = r.cell
      · obtain rfl : p = r.path := ha.apart _ _ _ hnode (hi ▸ hr.node)
        rw [if_pos hi, hi, hfollow, Option.map_some, if_pos (hpath ▸ hdpath), ← hpath]
      · rw [if_neg hi]
        cases hi' : a.follow p i with
        | none => rfl
        | some e =>
          have hep : e.path = p := path_of_follow hi'
          have hne : p ≠ d'.path := by
            rintro rfl
            rw [hpath, hr.node] at hnode
            exact hi (Option.some.inj hnode).symm
          rw [Option.map_some, if_neg (hep ▸ hne)]
  · intro p i hp
    rw [List.length_set]
    exact ha.bound p i hp
  · intro k q hq
    obtain ⟨e, he, hqlayout⟩ := hq.dataset
    obtain ⟨e', he', hlayout'⟩ := Catalog.dataset?_put_keeps hd (hpath.trans hdpath.symm) hsame he
    exact ⟨hq.path, hq.node, e', he', hlayout'.trans hqlayout⟩

/-! ## Calls -/

theorem Shows.isNone_entry? (ha : Shows c a) (p : Path) : (c.entry? p).isNone = (a.nodes.lookup p).isNone := by
  rw [ha.entry]
  cases hnode : a.nodes.lookup p with
  | none => rfl
  | some i =>
    rw [Option.bind_some, Arena.follow, List.getElem?_eq_getElem (ha.bound p i hnode)]
    rfl

theorem Shows.checkVacant (ha : Shows c a) (p : Path) : a.checkVacant p = c.checkVacant p := by
  rw [Arena.checkVacant, Catalog.checkVacant, ha.isNone_entry?, Catalog.groupExists, ha.groups]

theorem Shows.lookup_of_vacant (ha : Shows c a) {p : Path} (hv : c.Vacant p) : a.nodes.lookup p = none := by
  have hentry := Catalog.entry?_eq_none.mpr fun h => hv.fresh (Catalog.mem_keys.mpr (.inr h))
  rw [← Option.isNone_iff_eq_none, ← ha.isNone_entry?, hentry]
  rfl

section
variable {t : ElementType X} (a) (p q : Path) (store : Store t.Carrier)

theorem lookup_add :
    (a.add p (.dataset t store)).nodes.lookup q = if q = p then some a.cells.length else a.nodes.lookup q := by
  rw [add, List.lookup_cons]
  by_cases h : q = p
  · rw [if_pos h, beq_iff_eq.mpr h]
  · rw [if_neg h, beq_eq_false_iff_ne.mpr h]

theorem follow_add_self :
    (a.add p (.dataset t store)).follow q a.cells.length = some ⟨t, ⟨q, store⟩⟩ := by
  simp [follow, add]

theorem follow_add {i : Nat} (hi : i < a.cells.length) :
    (a.add p (.dataset t store)).follow q i = a.follow q i := by
  rw [follow, follow, add, List.getElem?_append_left hi]

end

theorem Shows.add (ha : Shows c a) {p : Path} (hv : c.Vacant p) (item : Catalog.Item X) :
    Shows (c.add p item) (a.add p item) := by
  cases item with
  | group => exact { ha with groups := congrArg (p :: ·) ha.groups }
  | dataset t store =>
    refine ⟨ha.groups, ?_, ?_, ?_⟩
    · intro q
      rw [Catalog.entry?_add_dataset, lookup_add]
      by_cases hq : q = p
      · subst hq
        rw [if_pos rfl, if_pos rfl, Option.bind_some, follow_add_self]
      · rw [if_neg (Ne.symm hq), if_neg hq, ha.entry]
        cases hnode : a.nodes.lookup q with
        | none => rfl
        | some i => rw [Option.bind_some, Option.bind_some, follow_add _ _ _ _ (ha.bound q i hnode)]
    · intro q i hq
      rw [lookup_add] at hq
      rw [Arena.add, List.length_append, List.length_singleton]
      split at hq
      · cases hq
        omega
      · have := ha.bound q i hq
        omega
    · -- the new cell has a number that no other name leads to
      intro q q' i hq hq'
      rw [lookup_add] at hq hq'
      split at hq <;> split at hq'
      · rw [‹q = p›, ‹q' = p›]
      · cases hq
        have := ha.bound q' _ hq'
        omega
      · cases hq'
        have := ha.bound q _ hq
        omega
      · exact ha.apart q q' i hq hq'

theorem Leads.add (ha : Shows c a) {h : AnyHandle X} {r : Ref} (hr : Leads c a h r) {p : Path} (hv : c.Vacant p)
    (item : Catalog.Item X) : Leads (c.add p item) (a.add p item) h r := by
  obtain ⟨d, hd, hlayout⟩ := hr.dataset
  have hd' : (c.add p item).dataset? h.2 = some d :=
    Catalog.dataset?_eq_some.mpr (Catalog.entry?_add hv item (Catalog.dataset?_eq_some.mp hd))
  refine ⟨hr.path, ?_, d, hd', hlayout⟩
  cases item with
  | group => exact hr.node
  | dataset t store =>
    have hne : r.path ≠ p := by
      intro hp
      have hnode := hr.node
      rw [hp, ha.lookup_of_vacant hv] at hnode
      cases hnode
    rw [lookup_add, if_neg hne, hr.node]

theorem leads_new (c : Catalog X) (a : Arena X) (p : Path) (item : Catalog.Item X) :
    Option.Rel (Leads (c.add p item) (a.add p item)) (item.handle? p) (a.ref? p item) := by
  cases item with
  | group => exact .none
  | dataset t store =>
    refine .some ⟨rfl, ?_, ⟨p, store⟩, ?_, rfl⟩
    · rw [lookup_add, if_pos rfl]
    · rw [Catalog.dataset?_eq_some, Catalog.entry?_add_dataset, if_pos rfl]

/-- What a call leaves and answers is related, and so is what was related before it. -/
structure Together (c : Catalog X) (a : Arena X) (x : Outcome (Option (AnyHandle X)) × Catalog X)
    (y : Outcome (Option Ref) × Arena X) : Prop where
  shows : Shows x.2 y.2
  answers : Outcome.Matches (Option.Rel (Leads x.2 y.2)) x.1 y.1
  kept : ∀ h r, Leads c a h r → Leads x.2 y.2 h r

theorem Shows.place (ha : Shows c a) {p : Path} {x : Outcome (Catalog.Item X)} (hx : x ≠ .trap)
    {new : Option (AnyHandle X)} (hnew : ∀ item, x = .ok item → item.handle? p = new) :
    Together c a ((do Catalog.place p x; return new : Action (Catalog X) _) c) (Arena.place p x a) := by
  cases x with
  | ok item =>
    have hcheck := ha.checkVacant p
    obtain rfl := hnew item rfl
    rw [Arena.place, Action.bind_apply, Catalog.place, Action.step]
    obtain ⟨hv, hok⟩ | ⟨-, e, hfail⟩ := Catalog.checkVacant_cases c p
    · rw [hok] at hcheck
      simp only [hcheck, hok, Outcome.ok_bind]
      exact ⟨ha.add hv item, .ok (leads_new c a p item), fun h r hr => hr.add ha hv item⟩
    · rw [hfail] at hcheck
      simp only [hcheck, hfail, Outcome.ok_bind, Outcome.fail_bind]
      exact ⟨ha, .fail e, fun h r hr => hr⟩
  | fail e => exact ⟨ha, .fail e, fun h r hr => hr⟩
  | trap => exact absurd rfl hx

theorem Shows.openDataset (ha : Shows c a) (t : ElementType X) (path : String) :
    Outcome.Matches (fun h r => Leads c a ⟨t, h⟩ r) (c.openDataset t path) (a.openDataset t path) := by
  rw [Catalog.openDataset, Arena.openDataset]
  have hentry := ha.entry (Path.ofString path)
  generalize Path.ofString path = p at hentry
  cases hnode : a.nodes.lookup p with
  | none =>
    rw [hnode] at hentry
    rw [hentry]
    exact .fail _
  | some i =>
    have hfollow : a.follow p i = some _ := Option.map_eq_some_iff.mpr
      ⟨_, List.getElem?_eq_getElem (ha.bound p i hnode), rfl⟩
    generalize Entry.mk (X := X) _ _ = e at hfollow
    rw [hnode, Option.bind_some, hfollow] at hentry
    rw [hentry]
    simp only [Outcome.ofOption, Outcome.ok_bind, Outcome.orTrap, hfollow]
    cases hd : e.as? t with
    | none => exact .fail _
    | some d =>
      obtain rfl := Entry.eq_of_as? hd
      exact .ok ⟨rfl, hnode, d, Catalog.dataset?_eq_some.mpr hentry, rfl⟩

theorem request_of_item {call : Catalog.Call X} {x : Outcome (Catalog.Item X)} (h : call.item? = some x) :
    request call = place call.path x := by
  cases call with
  | openDataset t path => cases h
  | createGroup path | createDataset t path config | createExtensible t path chunkLen level =>
    obtain rfl := Option.some.inj h
    rfl

theorem Shows.request (ha : Shows c a) (call : Catalog.Call X) :
    Together c a (Catalog.request call c) (Arena.request call a) := by
  cases hitem : call.item? with
  | some x =>
    obtain ⟨hperform, htrap⟩ := Catalog.perform_of_item hitem
    rw [request_of_item hitem, Catalog.request_eq, hperform]
    apply ha.place htrap
    rintro item rfl
    exact Catalog.handle?_of_item hitem
  | none =>
    cases call with
    | openDataset t path =>
      have hopen := ha.openDataset t path
      simp only [Catalog.request, Arena.request, Action.bind_apply, Action.view]
      generalize c.openDataset t path = x at hopen
      generalize a.openDataset t path = y at hopen
      cases hopen with
      | ok hr => exact ⟨ha, .ok (.some hr), fun h r hr => hr⟩
      | fail e => exact ⟨ha, .fail e, fun h r hr => hr⟩
      | trap => exact ⟨ha, .trap, fun h r hr => hr⟩
    | _ => cases hitem

theorem agrees : Session.byPath.Agrees (X := X) Session.byReference Shows Leads where
  request ha call :=
    have h := ha.request call
    ⟨h.shows, h.answers, h.kept⟩
  use ha hr op := ha.use hr op
  report ha hr := ha.report hr

end Arena

end Ragged

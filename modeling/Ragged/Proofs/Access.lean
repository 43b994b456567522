import Ragged.Proofs.Creating
import Ragged.Proofs.Session

/-!
# Access by path

The handles of a container hold the path of a dataset, which is looked up at every use. An act changes the dataset
that it uses and no other. What is at a path stays there, with its type and its layout.
-/

namespace Ragged

variable {X : Type} [Elements X]

abbrev AnyHandle (X : Type) := Sigma (@Handle X)

namespace Catalog

def Item.handle? (p : Path) : Item X → Option (AnyHandle X)
  | .group => none
  | .dataset t _ => some ⟨t, ⟨p⟩⟩

def Call.handle? : Call X → Option (AnyHandle X)
  | createGroup _ => none
  | createDataset t path _ => some ⟨t, ⟨.ofString path⟩⟩
  | createExtensible t path _ _ => some ⟨t, ⟨.ofString path⟩⟩
  | openDataset t path => some ⟨t, ⟨.ofString path⟩⟩

def request : Call X → Action (Catalog X) (Option (AnyHandle X))
  | .createGroup path => do
    createGroup path
    return none
  | .createDataset t path config => do return some ⟨t, ← createDataset t path config⟩
  | .createExtensible t path chunkLen level => do return some ⟨t, ← createExtensible t path chunkLen level⟩
  | .openDataset t path => do return some ⟨t, ← Action.view fun c => c.openDataset t path⟩

theorem request_eq (call : Call X) : request call = (do perform call; return call.handle?) := by
  cases call with
  | createGroup path => rfl
  | createDataset t path config =>
    simp only [request, perform, createDataset_eq, bind_assoc, pure_bind]
    rfl
  | createExtensible t path chunkLen level =>
    simp only [request, perform, createExtensible_eq, bind_assoc, pure_bind]
    rfl
  | openDataset t path =>
    funext c
    simp only [request, perform, Action.bind_apply, Action.view, openDataset]
    cases c.entry? (Path.ofString path) with
    | none => rfl
    | some e =>
      simp only [Outcome.ofOption, Outcome.ok_bind]
      cases e.as? t with
      | none => rfl
      | some d => rfl

theorem item_cases {call : Call X} {item : Item X} (h : call.item? = some (.ok item)) :
    item = .group ∧ call.handle? = none ∨
      ∃ t store, item = .dataset t store ∧ call.handle? = some ⟨t, ⟨call.path⟩⟩ ∧
        ∀ path, Dataset.New ⟨path, store⟩ := by
  cases call with
  | createGroup path => exact .inl ⟨(Outcome.ok.inj (Option.some.inj h)).symm, rfl⟩
  | createDataset t path config =>
    obtain ⟨store, rfl, hnew⟩ := fixedItem_eq_ok (Option.some.inj h)
    exact .inr ⟨t, store, rfl, rfl, hnew⟩
  | createExtensible t path chunkLen level =>
    obtain ⟨store, rfl, -, hnew⟩ := growingItem_eq_ok (Option.some.inj h)
    exact .inr ⟨t, store, rfl, rfl, hnew⟩
  | openDataset t path => cases h

theorem handle?_of_item {call : Call X} {item : Item X} (h : call.item? = some (.ok item)) :
    item.handle? call.path = call.handle? := by
  obtain ⟨rfl, hhandle⟩ | ⟨t, store, rfl, hhandle, -⟩ := item_cases h
  · exact hhandle.symm
  · exact hhandle.symm

end Catalog

namespace Session

def byPath : Access X (Catalog X) (AnyHandle X) where
  request := Catalog.request
  use h op := do return ⟨h.1, ← h.2.act (Dataset.perform (op h.1))⟩
  report h := h.2.view fun d => .ok d.report

variable {c : Catalog X} {h : AnyHandle X}

theorem use_byPath {d : Dataset h.1.Carrier} (hd : c.dataset? h.2 = some d) (op : Use X) :
    byPath.use h op c =
      ((do return ⟨h.1, ← (Dataset.perform (op h.1) d).1⟩), c.put (Dataset.perform (op h.1) d).2) := by
  rw [byPath]
  dsimp only
  rw [Action.bind_apply, Handle.act_eq hd]
  cases (Dataset.perform (op h.1) d).1 <;> rfl

theorem use_byPath_of_none (hd : c.dataset? h.2 = none) (op : Use X) : byPath.use h op c = (.trap, c) := by
  rw [byPath]
  dsimp only
  rw [Action.bind_apply, Handle.act, hd]

theorem report_byPath {d : Dataset h.1.Carrier} (hd : c.dataset? h.2 = some d) :
    byPath.report h c = .ok d.report := by
  exact Handle.view_eq hd _

theorem perform_call (call : Catalog.Call X) (s : State (Catalog X) (AnyHandle X)) :
    ((byPath.perform (.call call) s).1 = .ok none ↔ (Catalog.perform call s.container).1 = .ok ()) ∧
      (byPath.perform (.call call) s).2.container = (Catalog.perform call s.container).2 := by
  have hrequest : byPath.request call = (do Catalog.perform call; return call.handle?) := Catalog.request_eq call
  rw [Access.perform, Action.bind_apply, within_apply, hrequest, Action.bind_apply]
  rcases Catalog.perform call s.container with ⟨x, c⟩
  refine ⟨?_, by cases x <;> rfl⟩
  cases x with
  | ok _ => exact ⟨fun _ => rfl, fun _ => rfl⟩
  | fail e => constructor <;> intro h <;> cases h
  | trap => constructor <;> intro h <;> cases h

/-- All that an act can do to a container. -/
inductive Changed (s : State (Catalog X) (AnyHandle X)) : Act X → Catalog X → Prop
  | called (call : Catalog.Call X) : Changed s (.call call) (Catalog.perform call s.container).2
  | used {i : Nat} {op : Use X} {h : AnyHandle X} {d : Dataset h.1.Carrier} (hh : s.handles[i]? = some h)
      (hd : s.container.dataset? h.2 = some d) :
      Changed s (.use i op) (s.container.put (Dataset.perform (op h.1) d).2)
  | kept (act : Act X) : Changed s act s.container

theorem changed (act : Act X) (s : State (Catalog X) (AnyHandle X)) :
    Changed s act (byPath.perform act s).2.container := by
  cases act with
  | call call =>
    rw [(perform_call call s).2]
    exact .called call
  | clone i =>
    have h := byPath.perform_cases (.clone i) s
    generalize (byPath.perform (.clone i) s).1 = x, (byPath.perform (.clone i) s).2 = s' at h
    cases h with
    | cloned | unclonable => exact .kept _
  | use i op =>
    have h := byPath.perform_cases (.use i op) s
    generalize (byPath.perform (.use i op) s).1 = x, (byPath.perform (.use i op) s).2 = s' at h
    cases h with
    | @used _ _ h hh =>
      cases hd : s.container.dataset? h.2 with
      | some d =>
        rw [use_byPath hd]
        exact .used hh hd
      | none =>
        rw [use_byPath_of_none hd]
        exact .kept _
    | unusable => exact .kept _

end Session

/-! ## What stays at a path -/

namespace Store

variable {α : Type} [Inhabited α]

theorem layout_writeRuns {runs : List Run} {s s' : Store α} {values : List α} (h : s.writeRuns runs values = .ok s') :
    s'.layout = s.layout := by
  induction runs generalizing s values with
  | nil =>
    obtain rfl := Outcome.ok.inj h
    rfl
  | cons r runs ih =>
    obtain ⟨mid, hrun, hrest⟩ := Outcome.bind_eq_ok.mp h
    rw [ih hrest]
    unfold writeRun at hrun
    dsimp only at hrun
    split at hrun
    · obtain rfl := Outcome.ok.inj hrun
      rfl
    · cases hrun

theorem layout_writeWithin {s s' : Store α} {shape : Shape} {slab : Slab} {values : List α}
    (h : s.writeWithin shape slab values = .ok s') : s'.layout = s.layout := by
  obtain ⟨_, -, h⟩ := Outcome.bind_eq_ok.mp h
  obtain ⟨_, -, h⟩ := Outcome.bind_eq_ok.mp h
  obtain ⟨runs, -, h⟩ := Outcome.bind_eq_ok.mp h
  exact layout_writeRuns h

theorem layout_append {s s' : Store α} {values : List α} (h : s.append values = .ok s') : s'.layout = s.layout := by
  unfold append at h
  split at h
  · cases h
  · obtain ⟨grown, -, h⟩ := Outcome.bind_eq_ok.mp h
    obtain ⟨mid, hwrite, h⟩ := Outcome.bind_eq_ok.mp h
    obtain rfl := Outcome.ok.inj h
    have hlayout := layout_writeWithin hwrite
    exact hlayout

end Store

theorem Dataset.layout_perform {α : Type} [Inhabited α] (op : Op α) (d : Dataset α) :
    (perform op d).2.layout = d.layout := by
  cases op with
  | read slab => rfl
  | write slab values =>
    rw [perform, Action.snd_bind_pure, write, Action.step]
    cases hwrite : d.store.write slab values with
    | ok store => exact Store.layout_writeWithin hwrite
    | fail e => rfl
    | trap => rfl
  | append values =>
    rw [perform, Action.snd_bind_pure, append, Action.step]
    by_cases hx : d.store.extensible = true
    · rw [if_pos hx]
      cases happend : d.store.append values with
      | ok store => exact Store.layout_append happend
      | fail e => rfl
      | trap => rfl
    · rw [if_neg hx]

namespace Catalog

variable {t : ElementType X}

theorem entry?_path {c : Catalog X} {p : Path} {e : Entry X} (h : c.entry? p = some e) : e.path = p := by
  simpa using List.find?_some h

theorem path_of_dataset? {c : Catalog X} {h : Handle t} {d : Dataset t.Carrier} (hd : c.dataset? h = some d) :
    d.path = h.path :=
  entry?_path (dataset?_eq_some.mp hd)

theorem handle_eq {c : Catalog X} {h k : AnyHandle X} {d : Dataset h.1.Carrier} {e : Dataset k.1.Carrier}
    (hd : c.dataset? h.2 = some d) (he : c.dataset? k.2 = some e) (hpath : h.2.path = k.2.path) : h = k := by
  have hentry := (dataset?_eq_some.mp hd).symm.trans (hpath ▸ dataset?_eq_some.mp he)
  obtain ⟨t, p⟩ := h
  obtain ⟨u, q⟩ := k
  obtain rfl : t = u := congrArg Entry.type (Option.some.inj hentry)
  obtain rfl : p = q := by cases p; cases q; congr
  rfl

theorem entry?_add_group (c : Catalog X) (p q : Path) : entry? (c.add p .group) q = c.entry? q := rfl

theorem entry?_add_dataset (c : Catalog X) (p q : Path) (store : Store t.Carrier) :
    entry? (c.add p (.dataset t store)) q = if p = q then some ⟨t, ⟨p, store⟩⟩ else c.entry? q := by
  unfold add entry?
  rw [List.find?_cons]
  by_cases h : p = q
  · simp [h]
  · simp [h]

theorem entry?_add {c : Catalog X} {p q : Path} {e : Entry X} (hv : c.Vacant p) (item : Item X)
    (h : c.entry? q = some e) : entry? (c.add p item) q = some e := by
  cases item with
  | group => exact h
  | dataset t store =>
    have hne : p ≠ q := by
      rintro rfl
      exact hv.fresh (mem_keys.mpr (.inr (entry?_path h ▸ List.mem_map_of_mem (List.mem_of_find?_eq_some h))))
    rw [entry?_add_dataset, if_neg hne, h]

theorem dataset?_perform {c : Catalog X} {h : Handle t} {d : Dataset t.Carrier} (hd : c.dataset? h = some d)
    (call : Call X) : (perform call c).2.dataset? h = some d := by
  have hcall := perform_cases call c
  generalize (perform call c).1 = x, (perform call c).2 = c' at hcall
  rw [dataset?_eq_some] at hd ⊢
  cases hcall with
  | refused e => exact hd
  | created hitem hv => exact entry?_add hv _ hd
  | opened => exact hd

theorem dataset?_put_of_ne {u : ElementType X} {c : Catalog X} {h : Handle t} {d : Dataset t.Carrier}
    {e : Dataset u.Carrier} (hd : c.dataset? h = some d) (hne : e.path ≠ h.path) :
    (c.put e).dataset? h = some d := by
  have hpath := path_of_dataset? hd
  rw [dataset?_eq_some] at hd ⊢
  rw [entry?_put, hd, Option.map_some, if_neg]
  rw [Entry.path_mk, hpath]
  exact hne.symm

theorem dataset?_put_keeps {c : Catalog X} {h k : AnyHandle X} {d d' : Dataset h.1.Carrier} {e : Dataset k.1.Carrier}
    (hd : c.dataset? h.2 = some d) (hpath : d'.path = d.path) (hlayout : d'.layout = d.layout)
    (he : c.dataset? k.2 = some e) : ∃ e', (c.put d').dataset? k.2 = some e' ∧ e'.layout = e.layout := by
  by_cases hsame : h.2.path = k.2.path
  · obtain rfl := handle_eq hd he hsame
    obtain rfl : d = e := Option.some.inj (hd.symm.trans he)
    exact ⟨d', dataset?_put hd hpath, hlayout⟩
  · refine ⟨e, dataset?_put_of_ne he ?_, rfl⟩
    rw [hpath, path_of_dataset? hd]
    exact hsame

end Catalog

namespace Session

variable {s : State (Catalog X) (AnyHandle X)} {act : Act X} {c : Catalog X} {t : ElementType X} {h : Handle t}
  {d : Dataset t.Carrier}

theorem Changed.dataset?_cases (hc : Changed s act c) (hd : s.container.dataset? h = some d) :
    c.dataset? h = some d ∨
      ∃ i op, act = .use i op ∧ s.handles[i]? = some ⟨t, h⟩ ∧ c.dataset? h = some (Dataset.perform (op t) d).2 := by
  cases hc with
  | called call => exact .inl (Catalog.dataset?_perform hd call)
  | @used i op k e hk he =>
    by_cases hsame : h.path = k.2.path
    · obtain rfl : (⟨t, h⟩ : AnyHandle X) = k := Catalog.handle_eq (h := ⟨t, h⟩) hd he hsame
      obtain rfl : d = e := Option.some.inj (hd.symm.trans he)
      exact .inr ⟨i, op, rfl, hk, Catalog.dataset?_put hd (Dataset.path_perform (op t) d)⟩
    · refine .inl (Catalog.dataset?_put_of_ne hd ?_)
      rw [Dataset.path_perform, Catalog.path_of_dataset? he]
      exact Ne.symm hsame
  | kept => exact .inl hd

/-- An act that does not use a dataset leaves it as it is. -/
theorem Changed.frame (hc : Changed s act c) (hd : s.container.dataset? h = some d)
    (hact : ∀ i op k, act = .use i op → s.handles[i]? = some k → k.2.path ≠ h.path) : c.dataset? h = some d := by
  rcases hc.dataset?_cases hd with hkept | ⟨i, op, rfl, hi, -⟩
  · exact hkept
  · exact absurd rfl (hact i op _ rfl hi)

end Session

end Ragged

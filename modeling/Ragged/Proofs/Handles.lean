import Ragged.Catalog
import Ragged.Proofs.Outcome

/-!
# Handles

A call through a handle acts on the dataset at its path. So calls through handles of one dataset, whichever of them
each call takes, answer as calls on the dataset itself.
-/

namespace Ragged

variable {X : Type} [Elements X] {t : ElementType X} {β γ : Type}

@[simp] theorem Entry.path_mk (d : Dataset t.Carrier) : (⟨t, d⟩ : Entry X).path = d.path := rfl

theorem Entry.eq_of_as? {e : Entry X} {d : Dataset t.Carrier} (h : e.as? t = some d) : e = ⟨t, d⟩ := by
  obtain ⟨u, dataset⟩ := e
  unfold as? at h
  by_cases hu : u = t
  · subst hu
    simp only [dite_true, Option.some.injEq] at h
    rw [h]
  · simp [hu] at h

namespace Catalog

theorem entry?_put (c : Catalog X) (d : Dataset t.Carrier) (p : Path) :
    entry? (c.put d) p = (c.entry? p).map fun e => if e.path = d.path then ⟨t, d⟩ else e := by
  unfold put entry?
  rw [List.find?_map]
  congr 2
  funext e
  by_cases h : e.path = d.path
  · rw [Function.comp_apply, if_pos h, Entry.path_mk, h]
  · rw [Function.comp_apply, if_neg h]

theorem paths_put (c : Catalog X) (d : Dataset t.Carrier) :
    (c.put d).entries.map Entry.path = c.entries.map Entry.path := by
  rw [put, List.map_map]
  apply List.map_congr_left
  intro e _
  by_cases h : e.path = d.path
  · rw [Function.comp_apply, if_pos h, Entry.path_mk, h]
  · rw [Function.comp_apply, if_neg h]

theorem suffix_put {c : Catalog X} {d : Dataset t.Carrier} {entries : List (Entry X)} (h : entries <:+ c.entries)
    (hd : d.path ∉ entries.map Entry.path) : entries <:+ (c.put d).entries := by
  obtain ⟨before, hbefore⟩ := h
  have hsame : entries.map (fun e => if e.path = d.path then ⟨t, d⟩ else e) = entries := by
    rw [List.map_congr_left (g := id), List.map_id]
    intro e he
    have hne : e.path ≠ d.path := fun h => hd (h ▸ List.mem_map_of_mem he)
    exact if_neg hne
  rw [put, ← hbefore, List.map_append, hsame]
  exact List.suffix_append _ _

theorem dataset?_eq_some {c : Catalog X} {h : Handle t} {d : Dataset t.Carrier} :
    c.dataset? h = some d ↔ c.entry? h.path = some ⟨t, d⟩ := by
  unfold dataset?
  cases he : c.entry? h.path with
  | none => simp
  | some e =>
    simp only [Option.bind_eq_bind, Option.bind_some, Option.some.injEq]
    constructor
    · exact Entry.eq_of_as?
    · rintro rfl
      simp [Entry.as?]

theorem dataset?_put {c : Catalog X} {h : Handle t} {d e : Dataset t.Carrier} (hd : c.dataset? h = some d)
    (he : e.path = d.path) : (c.put e).dataset? h = some e := by
  rw [dataset?_eq_some, entry?_put, dataset?_eq_some.mp hd, Option.map_some]
  simp [he]

end Catalog

namespace Handle

theorem view_eq {c : Catalog X} {h : Handle t} {d : Dataset t.Carrier} (hd : c.dataset? h = some d)
    (f : Dataset t.Carrier → Outcome β) : h.view f c = f d := by
  rw [view, hd]
  rfl

theorem act_eq {c : Catalog X} {h : Handle t} {d : Dataset t.Carrier} (hd : c.dataset? h = some d)
    (a : Action (Dataset t.Carrier) β) : h.act a c = ((a d).1, c.put (a d).2) := by
  unfold act
  rw [hd]

/-- Calls that leave a dataset at its path answer alike through all its handles. -/
theorem each_act {f : γ → Action (Dataset t.Carrier) β} (hf : ∀ x d, (f x d).2.path = d.path)
    {calls : List (Handle t × γ)} {c : Catalog X} {d : Dataset t.Carrier}
    (hd : ∀ call ∈ calls, c.dataset? call.1 = some d) :
    (Action.each (fun call => call.1.act (f call.2)) calls c).1 = (Action.each f (calls.map Prod.snd) d).1 := by
  induction calls generalizing c d with
  | nil => rfl
  | cons call calls ih =>
    rw [List.forall_mem_cons] at hd
    have hrest : ∀ call' ∈ calls, (c.put (f call.2 d).2).dataset? call'.1 = some (f call.2 d).2 := by
      intro call' hcall'
      exact Catalog.dataset?_put (hd.2 call' hcall') (hf call.2 d)
    rw [List.map_cons, Action.each_cons, Action.each_cons, act_eq hd.1, ih hrest]

end Handle

end Ragged

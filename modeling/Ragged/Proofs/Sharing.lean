import Ragged.Proofs.References

/-!
# Handles share their own dataset and nothing else

A dataset can be opened as soon as it was created, with the type that it was created with. All its handles show the
same, and what is done through handles of other datasets is not seen through them.
-/

namespace Ragged

variable {X : Type} [Elements X]

namespace Catalog

variable {t u : ElementType X} {c : Catalog X}

/-! ## Types at paths -/

def type? (c : Catalog X) (p : Path) : Option (ElementType X) := (c.entry? p).map Entry.type

theorem type?_put {h : Handle t} {d d' : Dataset t.Carrier} (hd : c.dataset? h = some d) (hpath : d'.path = d.path)
    (p : Path) : (c.put d').type? p = c.type? p := by
  unfold type?
  rw [entry?_put]
  cases he : c.entry? p with
  | none => rfl
  | some e =>
    rw [Option.map_some, Option.map_some]
    by_cases hp : e.path = d'.path
    · -- this is the entry of the dataset, so its type is the one of the dataset
      have hsame : p = h.path := by rw [← entry?_path he, hp, hpath, path_of_dataset? hd]
      rw [hsame, dataset?_eq_some.mp hd] at he
      obtain rfl := Option.some.inj he
      rw [if_pos hp]
      rfl
    · rw [if_neg hp]
      rfl

theorem handle?_dataset {p q : Path} {store : Store u.Carrier} :
    (Item.dataset u store).handle? p = some ⟨t, ⟨q⟩⟩ ↔ u = t ∧ p = q := by
  constructor
  · intro h
    cases h
    exact ⟨rfl, rfl⟩
  · rintro ⟨rfl, rfl⟩
    rfl

theorem type?_add {p : Path} (hv : c.Vacant p) (item : Item X) (q : Path) :
    (c.add p item).type? q = some t ↔ c.type? q = some t ∨ item.handle? p = some ⟨t, ⟨q⟩⟩ := by
  unfold type?
  cases item with
  | group => simp [Item.handle?, entry?_add_group]
  | dataset u store =>
    rw [entry?_add_dataset, handle?_dataset]
    by_cases hq : p = q
    · subst hq
      have hnone := entry?_eq_none.mpr fun h => hv.fresh (mem_keys.mpr (.inr h))
      simp [hnone]
    · simp [hq]

theorem openDataset_eq_ok (t : ElementType X) (path : String) :
    (∃ h, c.openDataset t path = .ok h) ↔ c.type? (.ofString path) = some t := by
  unfold openDataset type?
  cases he : c.entry? (.ofString path) with
  | none => simp [he, Outcome.ofOption]
  | some e =>
    by_cases ht : e.type = t
    · simp [he, Outcome.ofOption, Entry.as?, ht]
    · simp [he, Outcome.ofOption, Entry.as?, ht]

inductive Call.Makes (t : ElementType X) : Path → Call X → Prop
  | fixed (path : String) (config : DatasetConfig) : Makes t (.ofString path) (.createDataset t path config)
  | growing (path : String) (chunkLen : Option UInt64) (level : UInt8) :
      Makes t (.ofString path) (.createExtensible t path chunkLen level)

theorem Call.makes_iff {p : Path} {call : Call X} {x : Outcome (Item X)} (h : call.item? = some x) :
    call.Makes t p ↔ call.handle? = some ⟨t, ⟨p⟩⟩ := by
  constructor
  · rintro ⟨⟩ <;> rfl
  · intro hhandle
    cases call with
    | createGroup path => cases hhandle
    | createDataset u path config =>
      cases hhandle
      exact .fixed path config
    | createExtensible u path chunkLen level =>
      cases hhandle
      exact .growing path chunkLen level
    | openDataset u path => cases h

theorem type?_perform (call : Call X) (c : Catalog X) (p : Path) :
    (perform call c).2.type? p = some t ↔ c.type? p = some t ∨ (perform call c).1 = .ok () ∧ call.Makes t p := by
  have hcall := perform_cases call c
  generalize (perform call c).1 = x, (perform call c).2 = c' at hcall
  cases hcall with
  | refused e => simp
  | created hitem hv => simp [type?_add hv, handle?_of_item hitem, Call.makes_iff hitem]
  | opened hitem =>
    have hnot : ¬ call.Makes t p := by
      rintro ⟨⟩ <;> cases hitem
    simp [hnot]

end Catalog

namespace Session

/-! ## Runs -/

theorem Changed.type?_eq {s : State (Catalog X) (AnyHandle X)} {act : Act X} {c : Catalog X} (hc : Changed s act c)
    (hact : ∀ call, act ≠ .call call) (p : Path) : c.type? p = s.container.type? p := by
  cases hc with
  | called call => exact absurd rfl (hact call)
  | used hh hd => exact Catalog.type?_put hd (Dataset.path_perform _ _) p
  | kept => rfl

theorem type?_step (t : ElementType X) (p : Path) (act : Act X) (s : State (Catalog X) (AnyHandle X)) :
    (byPath.perform act s).2.container.type? p = some t ↔
      s.container.type? p = some t ∨
        ∃ call, act = .call call ∧ (byPath.perform act s).1 = .ok none ∧ call.Makes t p := by
  cases act with
  | call call =>
    obtain ⟨hanswer, hcontainer⟩ := perform_call call s
    rw [hcontainer, hanswer, Catalog.type?_perform]
    simp
  | clone i => simp [(changed (.clone i) s).type?_eq nofun p]
  | use i op => simp [(changed (.use i op) s).type?_eq nofun p]

theorem type?_each (t : ElementType X) (p : Path) (acts : List (Act X)) (s : State (Catalog X) (AnyHandle X)) :
    (Action.each byPath.perform acts s).2.container.type? p = some t ↔
      s.container.type? p = some t ∨
        ∃ call, (Act.call call, .ok none) ∈ acts.zip (Action.each byPath.perform acts s).1 ∧ call.Makes t p := by
  induction acts generalizing s with
  | nil => simp [Action.each]
  | cons act acts ih =>
    rw [Action.each_cons, ih, type?_step, List.zip_cons_cons]
    simp only [List.mem_cons, Prod.mk.injEq]
    constructor
    · rintro ((h | ⟨call, rfl, hok, hmakes⟩) | ⟨call, hmem, hmakes⟩)
      · exact .inl h
      · exact .inr ⟨call, .inl ⟨rfl, hok.symm⟩, hmakes⟩
      · exact .inr ⟨call, .inr hmem, hmakes⟩
    · rintro (h | ⟨call, ⟨rfl, hok⟩ | hmem, hmakes⟩)
      · exact .inl (.inl h)
      · exact .inl (.inr ⟨call, rfl, hok.symm, hmakes⟩)
      · exact .inr ⟨call, hmem, hmakes⟩

theorem shares_byPath {s : State (Catalog X) (AnyHandle X)}
    (hs : ∀ h ∈ s.handles, ∃ d, s.container.dataset? h.2 = some d) :
    byPath.Shares (fun h => h.2.path) s where
  reports h hh := by
    obtain ⟨d, hd⟩ := hs h hh
    exact ⟨d.report, report_byPath hd, Catalog.path_of_dataset? hd⟩
  same h hh k hk hpath := by
    obtain ⟨d, hd⟩ := hs h hh
    obtain ⟨e, he⟩ := hs k hk
    rw [Catalog.handle_eq hd he hpath]
  frame h hh act hact := by
    obtain ⟨d, hd⟩ := hs h hh
    rw [report_byPath hd, report_byPath ((changed act s).frame hd hact)]

/-- Whatever calls are made, and however their handles are copied and used: a dataset can be opened with a type if and
only if a call made one of this type at the path in its normal form. All handles of one path show the same type, shape,
layout, number of chunks and elements, and no act that does not use a handle of this path changes what they show,
whether it succeeds or fails. All of this holds as well for handles that lead to shared cells and remember a layout:
they are given by the same acts, which answer alike, and they show the same. -/
theorem handles_share (acts : List (Act X)) :
    let run := Action.each byPath.perform acts ⟨.empty, []⟩
    let run' := Action.each byReference.perform acts ⟨.empty, []⟩
    (∀ t path, (∃ h, run.2.container.openDataset t path = .ok h) ↔
      ∃ call, (Act.call call, .ok none) ∈ acts.zip run.1 ∧ call.Makes t (.ofString path)) ∧
    byPath.Shares (fun h => h.2.path) run.2 ∧
    byReference.Shares Ref.path run'.2 ∧
    run'.1 = run.1 ∧
    List.Forall₂ (fun h r => r.path = h.2.path ∧
      byReference.report r run'.2.container = byPath.report h run.2.container) run.2.handles run'.2.handles := by
  intro run run'
  have hstart : Related (Arena.Shows (X := X)) Arena.Leads ⟨.empty, []⟩ ⟨.empty, []⟩ := ⟨Arena.shows_empty, .nil⟩
  obtain ⟨hanswers, hrelated⟩ := Arena.agrees.each hstart acts
  have hlive : ∀ h ∈ run.2.handles, ∃ d, run.2.container.dataset? h.2 = some d := by
    intro h hh
    obtain ⟨i, r, -, -, hr⟩ := forall₂_mem hrelated.handles.flip hh
    obtain ⟨d, hd, -⟩ := hr.dataset
    exact ⟨d, hd⟩
  refine ⟨?_, shares_byPath hlive, Arena.agrees.shares (fun hr => hr.path) hrelated (shares_byPath hlive), hanswers.symm,
    hrelated.handles.imp fun h r hr => ⟨hr.path, (hrelated.container.report hr).symm⟩⟩
  intro t path
  rw [Catalog.openDataset_eq_ok, type?_each]
  exact or_iff_right nofun

theorem handles_share_two_spellings :
    let grow : Use Empty := fun _ => .append (List.replicate 3 default)
    let acts : List (Act Empty) :=
      [.call (.createExtensible .byte "a" (some 2) 0), .call (.openDataset .byte "//a/"),
        .call (.createDataset .word32 "b" { dimensions := [1] }), .clone 1, .use 0 grow]
    let s := (Action.each byReference.perform acts ⟨.empty, []⟩).2
    let a : Ref := ⟨["a"], .chunked [2] [], 0⟩
    let b : Ref := ⟨["b"], .contiguous, 1⟩
    s.handles = [a, a, b, a] ∧
    (∃ r, byReference.report a s.container = .ok r ∧ r.path = ["a"]) ∧
    byReference.report b (byReference.perform (.use 1 grow) s).2.container = byReference.report b s.container := by
  intro grow acts s a b
  have hhandles : s.handles = [a, a, b, a] := by decide
  obtain ⟨-, -, hshares, -, -⟩ := handles_share acts
  refine ⟨hhandles, hshares.reports a ?_, hshares.frame b ?_ _ ?_⟩
  · rw [hhandles]
    exact List.mem_cons_self
  · rw [hhandles]
    simp
  · intro i op r hact hr
    obtain ⟨rfl, -⟩ := Act.use.inj hact
    rw [hhandles] at hr
    obtain rfl : a = r := Option.some.inj hr
    decide

end Session

end Ragged

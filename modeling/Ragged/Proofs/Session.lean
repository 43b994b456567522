import Mathlib.Data.List.Forall2
import Ragged.Proofs.Dataset
import Ragged.Proofs.Hierarchy

/-!
# Sessions

A session makes calls on a container. It keeps every handle that a call gives, and every copy of one, and may use any
of them at any time. What a handle is and how it leads to its dataset is left open here: that is an `Access`. The
containers of this library give access by path.
-/

namespace Ragged

/-- What a handle shows of its dataset. -/
structure Report (X : Type) [Elements X] where
  type : ElementType X
  path : Path
  shape : Shape
  layout : Layout
  allocatedChunks : Nat
  read : Slab → Outcome (List type.Carrier)

variable {X : Type} [Elements X]

def Dataset.report {t : ElementType X} (d : Dataset t.Carrier) : Report X :=
  ⟨t, d.path, d.shape, d.layout, d.store.allocatedChunks, d.read⟩

namespace Session

abbrev Use (X : Type) [Elements X] := (t : ElementType X) → Op t.Carrier

abbrev Values (X : Type) [Elements X] := (t : ElementType X) × List t.Carrier

inductive Act (X : Type) [Elements X] where
  | call (call : Catalog.Call X)
  | clone (i : Nat)
  | use (i : Nat) (op : Use X)

/-- The operation of an act is on slabs that can be made. -/
def Act.Sized : Act X → Prop
  | use _ op => ∀ t, (op t).Sized
  | call _ => True
  | clone _ => True

structure Access (X : Type) [Elements X] (σ η : Type) where
  request : Catalog.Call X → Action σ (Option η)
  use : η → Use X → Action σ (Values X)
  report : η → σ → Outcome (Report X)

structure State (σ η : Type) where
  container : σ
  /-- In the order in which they were made. -/
  handles : List η

section
variable {σ η α : Type}

def handle (i : Nat) : Action (State σ η) η := Action.view fun s => Outcome.orTrap s.handles[i]?

def keep (h : Option η) : Action (State σ η) Unit :=
  Action.step fun s => .ok { s with handles := s.handles ++ h.toList }

def within (a : Action σ α) : Action (State σ η) α :=
  a.zoom State.container fun container s => { s with container }

def Access.perform (A : Access X σ η) : Act X → Action (State σ η) (Option (Values X))
  | .call call => do
    keep (← within (A.request call))
    return none
  | .clone i => do
    keep (some (← handle i))
    return none
  | .use i op => do
    let h ← handle i
    return some (← within (A.use h op))

theorem within_apply (a : Action σ α) (s : State σ η) :
    within a s = ((a s.container).1, ⟨(a s.container).2, s.handles⟩) := rfl

inductive Performed (A : Access X σ η) (s : State σ η) : Act X → Outcome (Option (Values X)) → State σ η → Prop
  | called {call : Catalog.Call X} {h : Option η} (hcall : (A.request call s.container).1 = .ok h) :
      Performed A s (.call call) (.ok none) ⟨(A.request call s.container).2, s.handles ++ h.toList⟩
  | refused {call : Catalog.Call X} {e : Error} (hcall : (A.request call s.container).1 = .fail e) :
      Performed A s (.call call) (.fail e) ⟨(A.request call s.container).2, s.handles⟩
  | trapped {call : Catalog.Call X} (hcall : (A.request call s.container).1 = .trap) :
      Performed A s (.call call) .trap ⟨(A.request call s.container).2, s.handles⟩
  | cloned {i : Nat} {h : η} (hh : s.handles[i]? = some h) :
      Performed A s (.clone i) (.ok none) ⟨s.container, s.handles ++ [h]⟩
  | used {i : Nat} {op : Use X} {h : η} (hh : s.handles[i]? = some h) :
      Performed A s (.use i op) (do return some (← (A.use h op s.container).1))
        ⟨(A.use h op s.container).2, s.handles⟩
  /-- There is no handle of this number. -/
  | unclonable {i : Nat} (hh : s.handles[i]? = none) : Performed A s (.clone i) .trap s
  | unusable {i : Nat} {op : Use X} (hh : s.handles[i]? = none) : Performed A s (.use i op) .trap s

theorem Access.perform_cases (A : Access X σ η) (act : Act X) (s : State σ η) :
    Performed A s act (A.perform act s).1 (A.perform act s).2 := by
  cases act with
  | call call =>
    rw [perform, Action.bind_apply, within_apply]
    cases hcall : (A.request call s.container).1 with
    | ok h => exact .called hcall
    | fail e => exact .refused hcall
    | trap => exact .trapped hcall
  | clone i =>
    rw [perform, Action.bind_apply, handle, Action.view]
    cases hh : s.handles[i]? with
    | some h => exact .cloned hh
    | none => exact .unclonable hh
  | use i op =>
    rw [perform, Action.bind_apply, handle, Action.view]
    cases hh : s.handles[i]? with
    | some h =>
      have hused : Performed A s (.use i op) _ _ := .used hh
      dsimp only [Outcome.orTrap]
      rw [Action.bind_apply, within_apply]
      cases hx : (A.use h op s.container).1 with
      | ok vs => rwa [hx] at hused
      | fail e => rwa [hx] at hused
      | trap => rwa [hx] at hused
    | none => exact .unusable hh

theorem forall₂_getElem? {τ : Type} {R : σ → τ → Prop} {l : List σ} {l' : List τ} (h : List.Forall₂ R l l') (i : Nat) :
    Option.Rel R l[i]? l'[i]? := by
  induction h generalizing i with
  | nil => exact .none
  | cons hx _ ih =>
    cases i with
    | zero => exact .some hx
    | succ i => exact ih i

/-- Two ways of access that answer alike, while states are related by `R` and handles by `L`. -/
structure Access.Agrees {τ κ : Type} (A : Access X σ η) (B : Access X τ κ) (R : σ → τ → Prop)
    (L : σ → τ → η → κ → Prop) : Prop where
  request : ∀ {c a}, R c a → ∀ call, R (A.request call c).2 (B.request call a).2 ∧
    Outcome.Matches (Option.Rel (L (A.request call c).2 (B.request call a).2)) (A.request call c).1
      (B.request call a).1 ∧
    ∀ h r, L c a h r → L (A.request call c).2 (B.request call a).2 h r
  use : ∀ {c a h r}, R c a → L c a h r → ∀ op, (A.use h op c).1 = (B.use r op a).1 ∧
    R (A.use h op c).2 (B.use r op a).2 ∧ ∀ h' r', L c a h' r' → L (A.use h op c).2 (B.use r op a).2 h' r'
  report : ∀ {c a h r}, R c a → L c a h r → A.report h c = B.report r a

structure Related {τ κ : Type} (R : σ → τ → Prop) (L : σ → τ → η → κ → Prop) (s : State σ η) (s' : State τ κ) :
    Prop where
  container : R s.container s'.container
  handles : List.Forall₂ (L s.container s'.container) s.handles s'.handles

section
variable {τ κ : Type} {A : Access X σ η} {B : Access X τ κ} {R : σ → τ → Prop} {L : σ → τ → η → κ → Prop}
  (h : A.Agrees B R L)
include h

theorem Access.Agrees.step {s : State σ η} {s' : State τ κ} (hs : Related R L s s') (act : Act X) :
    (A.perform act s).1 = (B.perform act s').1 ∧ Related R L (A.perform act s).2 (B.perform act s').2 := by
  cases act with
  | call call =>
    obtain ⟨hnext, hanswer, hkept⟩ := h.request hs.container call
    have hhandles := hs.handles.imp hkept
    simp only [perform, Action.bind_apply, within_apply]
    generalize (A.request call s.container).1 = x at hanswer
    generalize (B.request call s'.container).1 = y at hanswer
    cases hanswer with
    | ok hnew =>
      cases hnew with
      | some hnew => exact ⟨rfl, hnext, List.rel_append hhandles (.cons hnew .nil)⟩
      | none => exact ⟨rfl, hnext, List.rel_append hhandles .nil⟩
    | fail e => exact ⟨rfl, hnext, hhandles⟩
    | trap => exact ⟨rfl, hnext, hhandles⟩
  | clone i =>
    have hhandle := forall₂_getElem? hs.handles i
    simp only [perform, Action.bind_apply, handle, Action.view]
    generalize s.handles[i]? = x at hhandle
    generalize s'.handles[i]? = y at hhandle
    cases hhandle with
    | some hnew => exact ⟨rfl, hs.container, List.rel_append hs.handles (.cons hnew .nil)⟩
    | none => exact ⟨rfl, hs⟩
  | use i op =>
    have hhandle := forall₂_getElem? hs.handles i
    simp only [perform, Action.bind_apply, handle, Action.view]
    generalize s.handles[i]? = x at hhandle
    generalize s'.handles[i]? = y at hhandle
    cases hhandle with
    | @some k r hlead =>
      obtain ⟨hanswer, hnext, hkept⟩ := h.use hs.container hlead op
      have hhandles := hs.handles.imp hkept
      simp only [Outcome.orTrap, within_apply]
      rw [← hanswer]
      cases (A.use k op s.container).1 with
      | ok vs => exact ⟨rfl, hnext, hhandles⟩
      | fail e => exact ⟨rfl, hnext, hhandles⟩
      | trap => exact ⟨rfl, hnext, hhandles⟩
    | none => exact ⟨rfl, hs⟩

theorem Access.Agrees.each {s : State σ η} {s' : State τ κ} (hs : Related R L s s') (acts : List (Act X)) :
    (Action.each A.perform acts s).1 = (Action.each B.perform acts s').1 ∧
      Related R L (Action.each A.perform acts s).2 (Action.each B.perform acts s').2 := by
  have hstep : ∀ act ∈ acts, ∀ (s : State σ η) (s' : State τ κ), Related R L s s' →
      (A.perform act s).1 = (B.perform act s').1 ∧ Related R L (A.perform act s).2 (B.perform act s').2 := by
    intro act _ s s' hs
    exact h.step hs act
  have hrun := Action.each_related id hstep hs
  rwa [List.map_id, List.map_id] at hrun

end

/-! ## Sharing -/

theorem Access.getElem?_handles (A : Access X σ η) (act : Act X) {s : State σ η} {i : Nat} {h : η}
    (hi : s.handles[i]? = some h) : (A.perform act s).2.handles[i]? = some h := by
  have happend (new : List η) : (s.handles ++ new)[i]? = some h := by
    rw [List.getElem?_append_left (List.getElem?_eq_some_iff.mp hi).1, hi]
  have hact := A.perform_cases act s
  generalize (A.perform act s).1 = x, (A.perform act s).2 = s' at hact
  cases hact with
  | called | cloned => exact happend _
  | refused | trapped | used | unclonable | unusable => exact hi

/-- Handles of one path show the same, and what is done through handles of other paths does not change it. -/
structure Access.Shares (A : Access X σ η) (path : η → Path) (s : State σ η) : Prop where
  reports : ∀ h ∈ s.handles, ∃ r, A.report h s.container = .ok r ∧ r.path = path h
  same : ∀ h ∈ s.handles, ∀ k ∈ s.handles, path h = path k → A.report h s.container = A.report k s.container
  frame : ∀ h ∈ s.handles, ∀ act, (∀ i op k, act = .use i op → s.handles[i]? = some k → path k ≠ path h) →
    A.report h (A.perform act s).2.container = A.report h s.container

theorem forall₂_mem {τ : Type} {R : σ → τ → Prop} {l : List σ} {l' : List τ} (h : List.Forall₂ R l l') {y : τ}
    (hy : y ∈ l') : ∃ (i : Nat) (x : σ), l[i]? = some x ∧ l'[i]? = some y ∧ R x y := by
  obtain ⟨i, hi⟩ := List.mem_iff_getElem?.mp hy
  have hrel := forall₂_getElem? h i
  rw [hi] at hrel
  generalize hx : l[i]? = x at hrel
  cases hrel with
  | some hxy => exact ⟨i, _, hx, hi, hxy⟩

theorem Access.Agrees.shares {τ κ : Type} {A : Access X σ η} {B : Access X τ κ} {R : σ → τ → Prop}
    {L : σ → τ → η → κ → Prop} (h : A.Agrees B R L) {path : η → Path} {path' : κ → Path}
    (hpath : ∀ {c a k r}, L c a k r → path' r = path k) {s : State σ η} {s' : State τ κ} (hs : Related R L s s')
    (hshares : A.Shares path s) : B.Shares path' s' := by
  have hreport {i : Nat} {k : η} {r : κ} (hk : s.handles[i]? = some k) (hr : s'.handles[i]? = some r) :
      A.report k s.container = B.report r s'.container ∧ path' r = path k := by
    have hrel := forall₂_getElem? hs.handles i
    rw [hk, hr] at hrel
    cases hrel with
    | some hlead => exact ⟨h.report hs.container hlead, hpath hlead⟩
  refine ⟨?_, ?_, ?_⟩
  · intro r hr
    obtain ⟨i, k, hki, hri, -⟩ := forall₂_mem hs.handles hr
    obtain ⟨hsame, hp⟩ := hreport hki hri
    obtain ⟨shown, hshown, hshownPath⟩ := hshares.reports k (List.mem_of_getElem? hki)
    exact ⟨shown, hsame ▸ hshown, hshownPath.trans hp.symm⟩
  · intro r hr q hq hrq
    obtain ⟨i, k, hki, hri, -⟩ := forall₂_mem hs.handles hr
    obtain ⟨j, l, hlj, hqj, -⟩ := forall₂_mem hs.handles hq
    obtain ⟨hsame, hp⟩ := hreport hki hri
    obtain ⟨hsame', hp'⟩ := hreport hlj hqj
    rw [← hsame, ← hsame']
    exact hshares.same k (List.mem_of_getElem? hki) l (List.mem_of_getElem? hlj) (by rw [← hp, ← hp', hrq])
  · intro r hr act hact
    obtain ⟨i, k, hki, hri, -⟩ := forall₂_mem hs.handles hr
    obtain ⟨hsame, hp⟩ := hreport hki hri
    obtain ⟨-, hnext⟩ := h.step hs act
    -- the handle and the reference are still at their place, so they are related after the step
    have hrel := forall₂_getElem? hnext.handles i
    rw [A.getElem?_handles act hki, B.getElem?_handles act hri] at hrel
    cases hrel with
    | some hlead =>
      rw [← h.report hnext.container hlead, ← hsame]
      apply hshares.frame k (List.mem_of_getElem? hki)
      intro j op l hop hl
      have hrel := forall₂_getElem? hs.handles j
      rw [hl] at hrel
      generalize hq : s'.handles[j]? = q at hrel
      cases hrel with
      | some hlead' =>
        have hne := hact j op _ hop hq
        rwa [hpath hlead', hp] at hne

end

end Session

end Ragged

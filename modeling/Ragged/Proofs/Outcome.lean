import Mathlib.Data.List.Forall2
import Ragged.Outcome

/-!
# Runs of outcomes and actions

A list of computations that all answer has the list of answers. `Action.each` goes through a list to its end,
whatever fails on the way. Two machines that answer alike step by step answer alike over a whole run.
-/

namespace Ragged

namespace Outcome

variable {α β γ : Type}

def value? : Outcome α → Option α
  | ok a => some a
  | _ => none

@[simp] theorem value?_withContext (x : Outcome α) (note : String) : (x.withContext note).value? = x.value? := by
  cases x <;> rfl

theorem require_eq_ok {c : Prop} [Decidable c] {e : Error} : require c e = ok () ↔ c := by
  unfold require
  by_cases hc : c
  · exact iff_of_true (if_pos hc) hc
  · exact iff_of_false (by rw [if_neg hc]; nofun) hc

theorem require_ne_trap (c : Prop) [Decidable c] (e : Error) : require c e ≠ trap := by
  unfold require
  split <;> nofun

theorem bind_ne_trap {x : Outcome α} {f : α → Outcome β} (hx : x ≠ trap) (hf : ∀ a, f a ≠ trap) :
    (x >>= f) ≠ trap := by
  cases x with
  | ok a => exact hf a
  | fail e => nofun
  | trap => exact absurd rfl hx

theorem mapM_eq_ok {f : α → Outcome β} {g : α → β} {l : List α} (h : ∀ a ∈ l, f a = .ok (g a)) :
    l.mapM f = .ok (l.map g) := by
  induction l with
  | nil => rfl
  | cons a l ih =>
    rw [List.forall_mem_cons] at h
    rw [List.mapM_cons, h.1, ok_bind, ih h.2]
    rfl

theorem mapM_congr {f g : α → Outcome β} {l : List α} (h : ∀ a ∈ l, f a = g a) : l.mapM f = l.mapM g := by
  induction l with
  | nil => rfl
  | cons a l ih =>
    rw [List.forall_mem_cons] at h
    rw [List.mapM_cons, List.mapM_cons, h.1, ih h.2]

theorem forall₂_of_mapM {f : α → Outcome β} {l : List α} {l' : List β} (h : l.mapM f = .ok l') :
    List.Forall₂ (fun a b => f a = .ok b) l l' := by
  induction l generalizing l' with
  | nil =>
    obtain rfl := Outcome.ok.inj h
    exact .nil
  | cons a l ih =>
    rw [List.mapM_cons] at h
    obtain ⟨b, hb, h⟩ := bind_eq_ok.mp h
    obtain ⟨bs, hbs, h⟩ := bind_eq_ok.mp h
    obtain rfl := Outcome.ok.inj h
    exact .cons hb (ih hbs)

/-- Both answer, with related values, or both stop for the same reason. -/
inductive Matches (R : α → β → Prop) : Outcome α → Outcome β → Prop
  | ok {a : α} {b : β} (h : R a b) : Matches R (ok a) (ok b)
  | fail (e : Error) : Matches R (fail e) (fail e)
  | trap : Matches R trap trap

end Outcome

namespace Action

variable {σ τ α β γ : Type}

theorem lift_ok_bind (x : α) (f : α → Action σ β) : ((liftM (Outcome.ok x) : Action σ α) >>= f) = f x := rfl

theorem view_bind (f : σ → β) (g : β → Action σ γ) (s : σ) : ((view fun s => .ok (f s)) >>= g) s = g (f s) s := rfl

theorem zoom_apply (get : σ → τ) (set : τ → σ → σ) (a : Action τ β) (s : σ) :
    zoom get set a s = ((a (get s)).1, set (a (get s)).2 s) := rfl

theorem bind_eq_ok {a : Action σ α} {f : α → Action σ β} {s t : σ} {b : β} :
    (a >>= f) s = (.ok b, t) ↔ ∃ x s', a s = (.ok x, s') ∧ f x s' = (.ok b, t) := by
  rw [bind_apply]
  rcases a s with ⟨x, s'⟩
  cases x <;> simp

theorem bind_of_ok {a : Action σ α} {f : α → Action σ β} {s : σ} {x : α} (h : (a s).1 = .ok x) :
    (a >>= f) s = f x (a s).2 := by
  rw [bind_apply]
  rcases ha : a s with ⟨y, t⟩
  rw [ha] at h
  obtain rfl := h
  rfl

theorem bind_of_fail {a : Action σ α} {f : α → Action σ β} {s : σ} {e : Error} (h : (a s).1 = .fail e) :
    (a >>= f) s = (.fail e, (a s).2) := by
  rw [bind_apply]
  rcases ha : a s with ⟨y, t⟩
  rw [ha] at h
  obtain rfl := h
  rfl

theorem bind_of_ne_ok {a b : Action σ Unit} {s : σ} (h : (a s).1 ≠ .ok ()) : (do a; b) s = a s := by
  rw [bind_apply]
  rcases ha : a s with ⟨x, t⟩
  rw [ha] at h
  cases x with
  | ok u => exact absurd rfl h
  | fail e => rfl
  | trap => rfl

theorem snd_bind_pure (a : Action σ Unit) (x : α) (s : σ) : ((do a; return x : Action σ α) s).2 = (a s).2 := by
  rw [bind_apply]
  rcases a s with ⟨y, t⟩
  cases y <;> rfl

/-- Acts on the members of a list in turn, whatever fails, and lists the answers. -/
def each (f : β → Action σ α) : List β → σ → List (Outcome α) × σ
  | [], s => ([], s)
  | b :: bs, s =>
    let (x, s) := f b s
    let (xs, s) := each f bs s
    (x :: xs, s)

theorem each_cons (f : β → Action σ α) (b : β) (bs : List β) (s : σ) :
    each f (b :: bs) s = ((f b s).1 :: (each f bs (f b s).2).1, (each f bs (f b s).2).2) := rfl

theorem each_append (f : β → Action σ α) (bs cs : List β) (s : σ) :
    each f (bs ++ cs) s =
      ((each f bs s).1 ++ (each f cs (each f bs s).2).1, (each f cs (each f bs s).2).2) := by
  induction bs generalizing s with
  | nil => rfl
  | cons b bs ih => rw [List.cons_append, each_cons, each_cons, ih, List.cons_append]

theorem each_keeps_of_mem {I : σ → Prop} {f : β → Action σ α} {bs : List β} (step : ∀ b ∈ bs, ∀ s, I s → I (f b s).2)
    {s : σ} (h : I s) : I (each f bs s).2 := by
  induction bs generalizing s with
  | nil => exact h
  | cons b bs ih =>
    rw [List.forall_mem_cons] at step
    rw [each_cons]
    exact ih step.2 (step.1 s h)

theorem each_keeps {I : σ → Prop} {f : β → Action σ α} (step : ∀ b s, I s → I (f b s).2) {s : σ} (h : I s)
    (bs : List β) : I (each f bs s).2 :=
  each_keeps_of_mem (fun b _ => step b) h

theorem each_of_collect {f : β → Action σ α} {g : β → γ} {bs : List β} {s t : σ} {ys : List γ}
    (h : collect (fun b => do let _ ← f b; return g b) bs s = (.ok ys, t)) :
    ∃ xs : List α, each f bs s = (xs.map .ok, t) := by
  induction bs generalizing s ys with
  | nil =>
    obtain ⟨-, rfl⟩ := Prod.mk.inj h
    exact ⟨[], rfl⟩
  | cons b bs ih =>
    obtain ⟨y, s', hb, h⟩ := bind_eq_ok.mp h
    obtain ⟨x, s'', hf, hy⟩ := bind_eq_ok.mp hb
    obtain ⟨-, rfl⟩ := Prod.mk.inj hy
    obtain ⟨zs, t', hbs, h⟩ := bind_eq_ok.mp h
    obtain ⟨-, rfl⟩ := Prod.mk.inj h
    obtain ⟨xs, hxs⟩ := ih hbs
    exact ⟨x :: xs, by rw [each_cons, hf, hxs, List.map_cons]⟩

/-- Machines that keep a relation and give answers of the same `view` at every step do so over every run. -/
theorem each_related {R : σ → τ → Prop} {f : β → Action σ α} {g : β → Action τ α} (view : Outcome α → γ)
    {bs : List β} {s : σ} {t : τ}
    (step : ∀ b ∈ bs, ∀ s t, R s t → view (f b s).1 = view (g b t).1 ∧ R (f b s).2 (g b t).2) (h : R s t) :
    (each f bs s).1.map view = (each g bs t).1.map view ∧ R (each f bs s).2 (each g bs t).2 := by
  induction bs generalizing s t with
  | nil => exact ⟨rfl, h⟩
  | cons b bs ih =>
    rw [List.forall_mem_cons] at step
    obtain ⟨hview, hnext⟩ := step.1 s t h
    obtain ⟨hviews, hlast⟩ := ih step.2 hnext
    rw [each_cons, each_cons, List.map_cons, List.map_cons, hview, hviews]
    exact ⟨rfl, hlast⟩

theorem forall_mem_zip_each {I : σ → Prop} {Q : β → Outcome α → Prop} {f : β → Action σ α} {bs : List β} {s : σ}
    (step : ∀ b ∈ bs, ∀ s, I s → Q b (f b s).1 ∧ I (f b s).2) (h : I s) :
    ∀ p ∈ bs.zip (each f bs s).1, Q p.1 p.2 := by
  induction bs generalizing s with
  | nil => intro p hp; cases hp
  | cons b bs ih =>
    rw [List.forall_mem_cons] at step
    obtain ⟨hq, hnext⟩ := step.1 s h
    intro p hp
    rw [each_cons, List.zip_cons_cons, List.mem_cons] at hp
    rcases hp with rfl | hp
    · exact hq
    · exact ih step.2 hnext p hp

theorem step_congr {f g : σ → Outcome σ} {s : σ} (h : f s = g s) : step f s = step g s := by
  unfold step
  rw [h]

theorem step_of_ok {f : σ → Outcome σ} {s t : σ} (h : f s = .ok t) : step f s = (.ok (), t) := by
  unfold step
  rw [h]

theorem step_of_fail {f : σ → Outcome σ} {s : σ} {e : Error} (h : f s = .fail e) : step f s = (.fail e, s) := by
  unfold step
  rw [h]

theorem step_of_trap {f : σ → Outcome σ} {s : σ} (h : f s = .trap) : step f s = (.trap, s) := by
  unfold step
  rw [h]

theorem step_matches {R : σ → τ → Prop} {f : σ → Outcome σ} {g : τ → Outcome τ} {s : σ} {t : τ} (h : R s t)
    (hm : Outcome.Matches R (f s) (g t)) (a : α) :
    ((do step f; return a : Action σ α) s).1 = ((do step g; return a : Action τ α) t).1 ∧
      R ((do step f; return a : Action σ α) s).2 ((do step g; return a : Action τ α) t).2 := by
  simp only [bind_apply, step]
  generalize f s = x at hm
  generalize g t = y at hm
  cases hm with
  | ok h' => exact ⟨rfl, h'⟩
  | fail e => exact ⟨rfl, h⟩
  | trap => exact ⟨rfl, h⟩

theorem forEach_append (f : β → Action σ Unit) (xs ys : List β) :
    forEach f (xs ++ ys) = (do forEach f xs; forEach f ys) := by
  induction xs with
  | nil => exact (pure_bind () fun _ => forEach f ys).symm
  | cons x xs ih => rw [List.cons_append, forEach, forEach, ih, bind_assoc]

theorem forEach_flatMap (f : β → Action σ Unit) (g : γ → List β) (l : List γ) :
    forEach (fun c => forEach f (g c)) l = forEach f (l.flatMap g) := by
  induction l with
  | nil => rfl
  | cons c l ih => rw [List.flatMap_cons, forEach_append, forEach, ih]

theorem forEach_lift {f : γ → Action σ Unit} {g : β → Outcome γ} {l : List β} {l' : List γ}
    (h : List.Forall₂ (fun b c => g b = .ok c) l l') : forEach (fun b => do f (← g b)) l = forEach f l' := by
  induction h with
  | nil => rfl
  | cons hb _ ih => rw [forEach, forEach, hb, lift_ok_bind, ih]

theorem forEach_flatten {f : γ → Action σ Unit} {g : β → Action σ Unit} {l : List β} {rows : List (List γ)}
    (h : List.Forall₂ (fun b row => g b = forEach f row) l rows) : forEach g l = forEach f rows.flatten := by
  induction h with
  | nil => rfl
  | cons hb _ ih => rw [forEach, hb, ih, List.flatten_cons, forEach_append]

theorem forEach_map (f : β → Action σ Unit) (g : γ → β) (l : List γ) :
    forEach f (l.map g) = forEach (fun c => f (g c)) l := by
  induction l with
  | nil => rfl
  | cons c l ih => rw [List.map_cons, forEach, forEach, ih]

theorem forEach_congr {f g : β → Action σ Unit} {l : List β} (h : ∀ b ∈ l, f b = g b) :
    forEach f l = forEach g l := by
  induction l with
  | nil => rfl
  | cons b l ih =>
    rw [List.forall_mem_cons] at h
    rw [forEach, forEach, h.1, ih h.2]

theorem lift_bind_agree {I : σ → Prop} (x : Outcome α) {f g : α → Action σ β} {s : σ} (hs : I s)
    (h : ∀ a, f a s = g a s ∧ I (g a s).2) :
    ((liftM x : Action σ α) >>= f) s = ((liftM x : Action σ α) >>= g) s ∧
      I (((liftM x : Action σ α) >>= g) s).2 := by
  cases x with
  | ok a => exact h a
  | fail e => exact ⟨rfl, hs⟩
  | trap => exact ⟨rfl, hs⟩

theorem forEach_agree {I : σ → Prop} {f g : β → Action σ Unit} {bs : List β} {s : σ}
    (step : ∀ b ∈ bs, ∀ s, I s → f b s = g b s ∧ I (g b s).2) (h : I s) :
    forEach f bs s = forEach g bs s ∧ I (forEach g bs s).2 := by
  induction bs generalizing s with
  | nil => exact ⟨rfl, h⟩
  | cons b bs ih =>
    rw [List.forall_mem_cons] at step
    obtain ⟨hsame, hnext⟩ := step.1 s h
    rw [forEach, forEach, bind_apply, bind_apply, hsame]
    rcases hb : g b s with ⟨x, s'⟩
    rw [hb] at hnext
    cases x with
    | ok u => exact ih step.2 hnext
    | fail e => exact ⟨rfl, hnext⟩
    | trap => exact ⟨rfl, hnext⟩

/-! ## Visits -/

/-- All visits answer, and lead from one state to another. -/
inductive Visits (visit : β → Action σ Unit) : List β → σ → σ → Prop
  | nil {s : σ} : Visits visit [] s s
  | cons {b : β} {bs : List β} {s s' s'' : σ} (head : visit b s = (.ok (), s')) (tail : Visits visit bs s' s'') :
      Visits visit (b :: bs) s s''

def noting (visit : β → Action σ Unit) (b : β) : Action (σ × List β) Unit := fun (s, made) =>
  ((visit b s).1, (visit b s).2, made ++ [b])

section
variable {visit : β → Action σ Unit} {bs : List β} {s s' : σ}

theorem Visits.forEach (h : Visits visit bs s s') : forEach visit bs s = (.ok (), s') := by
  induction h with
  | nil => rfl
  | cons head _ ih =>
    rw [Action.forEach, bind_apply, head]
    exact ih

theorem visits_of_forEach (h : forEach visit bs s = (.ok (), s')) : Visits visit bs s s' := by
  induction bs generalizing s with
  | nil =>
    obtain rfl : s = s' := congrArg Prod.snd h
    exact .nil
  | cons b bs ih =>
    rw [Action.forEach, bind_apply] at h
    rcases hb : visit b s with ⟨x, t⟩
    rw [hb] at h
    cases x with
    | ok u => exact .cons hb (ih h)
    | fail e => cases h
    | trap => cases h

theorem Visits.of_mem (h : Visits visit bs s s') {b : β} (hb : b ∈ bs) : ∃ t t', visit b t = (.ok (), t') := by
  induction h with
  | nil => cases hb
  | cons head _ ih =>
    rcases List.mem_cons.mp hb with rfl | hb
    · exact ⟨_, _, head⟩
    · exact ih hb

theorem Visits.forEach_stops (h : Visits visit bs s s') {b : β} {t : σ} {x : Outcome Unit}
    (hb : visit b s' = (x, t)) (hx : x ≠ .ok ()) (after : List β) :
    Action.forEach visit (bs ++ b :: after) s = (x, t) := by
  have hstop : (visit b s').1 ≠ .ok () := by rwa [hb]
  rw [forEach_append, bind_apply, h.forEach]
  dsimp only
  rw [Action.forEach, bind_of_ne_ok hstop, hb]

theorem Visits.noting (h : Visits visit bs s s') (made : List β) :
    Visits (noting visit) bs (s, made) (s', made ++ bs) := by
  induction h generalizing made with
  | nil =>
    rw [List.append_nil]
    exact .nil
  | @cons b bs s s' s'' head _ ih =>
    have ih := ih (made ++ [b])
    rw [List.append_assoc, List.singleton_append] at ih
    refine .cons ?_ ih
    simp only [Action.noting, head]

end

end Action

end Ragged

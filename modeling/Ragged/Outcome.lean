import Ragged.Error

/-!
# Outcomes and actions

A computation answers, fails with an `Error`, or traps. It traps where arithmetic leaves the machine words, where
it would divide by zero, or where it would reach outside a buffer: the places where a program over words has no
answer to give. An `Action` is a computation on a state that keeps what was done before a failure.
-/

namespace Ragged

inductive Outcome (α : Type) where
  | ok (value : α)
  | fail (error : Error)
  | trap
deriving DecidableEq

namespace Outcome

variable {α β : Type}

def bind : Outcome α → (α → Outcome β) → Outcome β
  | ok a, f => f a
  | fail e, _ => fail e
  | trap, _ => trap

instance : Monad Outcome where
  pure := ok
  bind := bind

@[simp] theorem pure_eq (a : α) : (pure a : Outcome α) = ok a := rfl
@[simp] theorem ok_bind (a : α) (f : α → Outcome β) : (ok a >>= f) = f a := rfl
@[simp] theorem fail_bind (e : Error) (f : α → Outcome β) : (fail e >>= f) = fail e := rfl
@[simp] theorem trap_bind (f : α → Outcome β) : (trap >>= f) = trap := rfl

theorem bind_eq_ok {x : Outcome α} {f : α → Outcome β} {b : β} :
    (x >>= f) = ok b ↔ ∃ a, x = ok a ∧ f a = ok b := by
  cases x <;> simp

instance : LawfulMonad Outcome := LawfulMonad.mk' Outcome
  (fun x => by cases x <;> rfl) (fun _ _ => rfl) (fun x _ _ => by cases x <;> rfl)

/-- Notes what was being done when an error arose. -/
def withContext (note : String) : Outcome α → Outcome α
  | fail e => fail (e.withContext note)
  | x => x

def ofOption (e : Error) : Option α → Outcome α
  | some a => ok a
  | none => fail e

/-- For a value that exists by construction. -/
def orTrap : Option α → Outcome α
  | some a => ok a
  | none => trap

def require (c : Prop) [Decidable c] (e : Error) : Outcome Unit :=
  if c then ok () else fail e

end Outcome

/-- A computation on a state. The state it leaves is kept also when it fails. -/
def Action (σ α : Type) := σ → Outcome α × σ

namespace Action

variable {σ τ α β : Type}

def bind (a : Action σ α) (f : α → Action σ β) : Action σ β := fun s =>
  match a s with
  | (.ok x, s) => f x s
  | (.fail e, s) => (.fail e, s)
  | (.trap, s) => (.trap, s)

instance : Monad (Action σ) where
  pure x := fun s => (.ok x, s)
  bind := bind

instance : MonadLift Outcome (Action σ) where
  monadLift x := fun s => (x, s)

theorem pure_apply (x : α) (s : σ) : (pure x : Action σ α) s = (.ok x, s) := rfl

theorem bind_apply (a : Action σ α) (f : α → Action σ β) (s : σ) :
    (a >>= f) s = match a s with
      | (.ok x, s) => f x s
      | (.fail e, s) => (.fail e, s)
      | (.trap, s) => (.trap, s) := rfl

instance : LawfulMonad (Action σ) := LawfulMonad.mk' (Action σ)
  (fun a => by
    funext s
    show bind a _ s = _
    unfold bind
    rcases a s with ⟨x, t⟩
    cases x <;> rfl)
  (fun _ _ => rfl)
  (fun a f g => by
    funext s
    simp only [bind_apply]
    rcases a s with ⟨x, t⟩
    cases x <;> rfl)

def view (f : σ → Outcome α) : Action σ α := fun s => (f s, s)

/-- A step that replaces the state, or fails and leaves it as it was. -/
def step (f : σ → Outcome σ) : Action σ Unit := fun s =>
  match f s with
  | .ok s => (.ok (), s)
  | .fail e => (.fail e, s)
  | .trap => (.trap, s)

def zoom (get : σ → τ) (set : τ → σ → σ) (a : Action τ α) : Action σ α := fun s =>
  let (x, t) := a (get s)
  (x, set t s)

/-- Acts on the members of a list in turn, up to the first failure. -/
def forEach (f : β → Action σ Unit) : List β → Action σ Unit
  | [] => pure ()
  | x :: xs => do f x; forEach f xs

/-- Acts on the members of a list in turn, up to the first failure, and lists the answers. -/
def collect (f : β → Action σ α) : List β → Action σ (List α)
  | [] => pure []
  | x :: xs => do
    let y ← f x
    let ys ← collect f xs
    return y :: ys

end Action

end Ragged

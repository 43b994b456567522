import Ragged.Error

/-!
# Raising errors

A caller may set errors to stop the program as soon as the first message is written, and callers that rule an error
out stop the program when it arises after all. `Raised` is a computation that may stop the program with a text.
-/

namespace Ragged

inductive Raised (α : Type) where
  | value (a : α)
  | stopped (text : String)
deriving DecidableEq

namespace Raised

variable {α β : Type}

def bind : Raised α → (α → Raised β) → Raised β
  | value a, f => f a
  | stopped text, _ => stopped text

instance : Monad Raised where
  pure := value
  bind := bind

@[simp] theorem pure_eq (a : α) : (pure a : Raised α) = value a := rfl
@[simp] theorem value_bind (a : α) (f : α → Raised β) : (value a >>= f) = f a := rfl
@[simp] theorem stopped_bind (text : String) (f : α → Raised β) : (stopped text >>= f) = stopped text := rfl

/-- Writes a message, which stops the program if it is strict. -/
def message (strict : Bool) (text : String) : Raised String :=
  if strict then stopped text else value text

end Raised

/-- The program is strict if the setting is exactly `1`. -/
def isStrict (setting : Option String) : Bool := setting == some "1"

namespace Error

/-- Makes an error, its messages in their order and the cause before the note. -/
def raise (strict : Bool) : Error → Raised Error
  | outOfBounds index start stop => .value (outOfBounds index start stop)
  | invalidArgument reason => do return invalidArgument (← Raised.message strict reason)
  | shapeMismatch expected actual => do
    let expected ← Raised.message strict expected
    return shapeMismatch expected (← Raised.message strict actual)
  | corruption reason => do return corruption (← Raised.message strict reason)
  | undecodable reason => do return undecodable (← Raised.message strict reason)
  | assertionFailed reason => do return assertionFailed (← Raised.message strict reason)
  | io reason => .value (io reason)
  | json refusal => .value (json refusal)
  | context note cause => do
    let cause ← cause.raise strict
    return cause.withContext (← Raised.message strict note)

/-- Makes an error and notes what was being done, from the innermost note to the outermost. -/
def raiseWithin (strict : Bool) (e : Error) (notes : List String) : Raised Error :=
  (notes.foldl withContext e).raise strict

/-- The messages that an error is made of, in the order in which they are written. -/
def messages : Error → List String
  | outOfBounds .. => []
  | invalidArgument reason => [reason]
  | shapeMismatch expected actual => [expected, actual]
  | corruption reason => [reason]
  | undecodable reason => [reason]
  | assertionFailed reason => [reason]
  | io _ => []
  | json _ => []
  | context note cause => cause.messages ++ [note]

/-- The text of the error below the outermost one, if there is one. -/
def source? : Error → Option String
  | io reason => some reason
  | json refusal => some refusal.reason
  | context _ cause => some cause.message
  | _ => none

def stop {α : Type} (e : Error) : Raised α := .stopped e.message

end Error

namespace Raised

variable {α : Type}

def ofOption (note : String) : Option α → Raised α
  | some a => value a
  | none => (Error.assertionFailed note).stop

def ofExcept : Except Error α → Raised α
  | .ok a => value a
  | .error e => e.stop

def ofExceptFor (note : String) : Except Error α → Raised α
  | .ok a => value a
  | .error e => (e.withContext note).stop

end Raised

end Ragged

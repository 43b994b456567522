/-!
# Errors

What can go wrong, one constructor for each kind of failure, and the text that is shown for it. The texts of failures
outside of this library, of input and output and of JSON, come with them.
-/

namespace Ragged

/-- Why a JSON text was refused: it breaks the grammar, it is JSON of another shape than the type asked for, or
it ends too early. -/
inductive JsonFault where
  | malformed
  | mismatched
  | truncated
deriving DecidableEq, Inhabited

/-- The words for the fault of a text. They come from outside, and nothing depends on them. -/
abbrev JsonWords := String → JsonFault → String

/-- The refusal of a JSON text, with the words for it. -/
structure JsonRefusal where
  fault : JsonFault
  reason : String
deriving DecidableEq, Inhabited

instance : Coe JsonRefusal JsonFault := ⟨JsonRefusal.fault⟩

def JsonFault.refusal (words : JsonWords) (text : String) (fault : JsonFault) : JsonRefusal := ⟨fault, words text fault⟩

inductive Error where
  | outOfBounds (index start stop : Nat)
  | invalidArgument (reason : String)
  | shapeMismatch (expected actual : String)
  | corruption (reason : String)
  | undecodable (reason : String)
  | assertionFailed (reason : String)
  | io (reason : String)
  | json (refusal : JsonRefusal)
  | context (note : String) (cause : Error)
deriving DecidableEq, Inhabited

namespace Error

def message : Error → String
  | outOfBounds index start stop => s!"index {index} out of bounds from {start} to {stop}"
  | invalidArgument reason => reason
  | shapeMismatch expected actual => s!"expected shape: {expected} but instead got {actual}"
  | corruption reason => s!"corrupt data: {reason}"
  | undecodable reason => reason
  | assertionFailed reason => reason
  | io reason => reason
  | json refusal => refusal.reason
  | context note cause => s!"{note}: {cause.message}"

instance : ToString Error := ⟨message⟩

instance : Repr Error := ⟨fun e _ => .text e.message⟩

/-- The innermost error, below all notes. -/
def root : Error → Error
  | context _ cause => cause.root
  | e => e

def isCorruption (e : Error) : Bool :=
  match e.root with
  | corruption _ => true
  | _ => false

def withContext (e : Error) (note : String) : Error :=
  context note e

end Error

end Ragged

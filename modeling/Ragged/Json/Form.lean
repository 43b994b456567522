import Ragged.Json.Skip

/-!
# JSON forms

A `Form` says how the values of a type are written as JSON and read back. Forms of records and of choices are built
from the forms of their parts, so that each is written down once for both directions. A reader stops at the first
fault of the text.
-/

namespace Ragged.Json

structure Form (α : Type) where
  write : α → List Char
  read : Reader α

/-- The fault of a value of another kind than the one asked for, which is read as far as its kind shows. -/
def wrongKind (s : List Char) : JsonFault :=
  match s with
  | [] => .truncated
  | c :: _ =>
    if c = '[' ∨ c = '{' then .mismatched
    else
      match skipScalar (.check maxDepth) s with
      | .ok _ => .mismatched
      | .error fault => fault

namespace Form

variable {α σ : Type}

def text (form : Form α) (a : α) : String := String.ofList (form.write a)

def readAll (form : Form α) (s : List Char) : Except JsonFault α := do
  let (a, rest) ← form.read s
  finish rest
  return a

def parse (form : Form α) (text : String) (words : JsonWords := fun _ _ => "") : Except JsonRefusal α :=
  (form.readAll text.toList).mapError (·.refusal words text)

/-! ## Words, lists and options -/

def writeNat (n : Nat) : List Char := Nat.toDigits 10 n

def readNat (bound : Nat) : Reader Nat := fun s =>
  match skipSpace s with
  | [] => .error .truncated
  | c :: s =>
    if c = '-' ∨ c.isDigit then do
      match ← number (c :: s) with
      | (some n, rest) => if n < bound then return (n, rest) else throw .mismatched
      | (none, _) => throw .mismatched
    else .error (wrongKind (c :: s))

def word : Form UInt64 where
  write n := writeNat n.toNat
  read s := do
    let (n, rest) ← readNat 18446744073709551616 s
    return (UInt64.ofNat n, rest)

def byte : Form UInt8 where
  write n := writeNat n.toNat
  read s := do
    let (n, rest) ← readNat 256 s
    return (UInt8.ofNat n, rest)

def bool : Form Bool where
  write b := (if b then "true" else "false").toList
  read s :=
    match skipSpace s with
    | [] => .error .truncated
    | c :: s =>
      if c = 't' then do return (true, ← literal "true".toList (c :: s))
      else if c = 'f' then do return (false, ← literal "false".toList (c :: s))
      else .error (wrongKind (c :: s))

def null : Form Unit where
  write _ := "null".toList
  read s :=
    match skipSpace s with
    | [] => .error .truncated
    | c :: s =>
      if c = 'n' then do return ((), ← literal "null".toList (c :: s))
      else .error (wrongKind (c :: s))

/-- A missing value is written as `null`. -/
def option (form : Form α) : Form (Option α) where
  write
    | none => null.write ()
    | some a => form.write a
  read s :=
    match skipSpace s with
    | 'n' :: s => do return (none, ← literal "null".toList ('n' :: s))
    | s => do
      let (a, rest) ← form.read s
      return (some a, rest)

/-- Reads one item or more and the closing bracket, in at most `fuel` steps. -/
def readItems (form : Form α) : Nat → Reader (List α)
  | 0, _ => .error .malformed
  | fuel + 1, s => do
    let (a, s) ← form.read s
    match skipSpace s with
    | [] => .error .truncated
    | c :: s =>
      if c = ',' then do
        let (as, s) ← readItems form fuel s
        return (a :: as, s)
      else if c = ']' then .ok ([a], s)
      else .error .malformed

def commas : List (List Char) → List Char
  | [] => []
  | [t] => t
  | t :: ts => t ++ ',' :: commas ts

def list (form : Form α) : Form (List α) where
  write as := '[' :: commas (as.map form.write) ++ [']']
  read s :=
    match skipSpace s with
    | [] => .error .truncated
    | c :: s =>
      if c = '[' then
        match skipSpace s with
        | [] => .error .truncated
        | ']' :: s => .ok ([], s)
        | s => readItems form (s.length + 1) s
      else .error (wrongKind (c :: s))

/-! ## Records -/

/-- A field of a record: its name, and how its value is read into the record and written from it. -/
structure Field (σ : Type) where
  name : String
  write : σ → List Char
  read : σ → Reader σ

def field (name : String) (form : Form α) (get : σ → α) (set : α → σ → σ) : Field σ where
  name := name
  write r := form.write (get r)
  read r s := do
    let (a, rest) ← form.read s
    return (set a r, rest)

def quoted (name : String) : List Char := '"' :: name.toList ++ ['"']

/-- Reads members and the closing bracket of an object, in at most `fuel` steps. A field must not come twice, and
other names are passed over. Answers also with the names of the fields that came. -/
def readMembers (fields : List (Field σ)) : Nat → List String → σ → Reader (σ × List String)
  | 0, _, _, _ => .error .malformed
  | fuel + 1, seen, r, s => do
    let (name, s) ← string (← openName s)
    let name := String.ofList name
    let ((r, seen), s) ← match fields.find? (·.name = name) with
      | some f =>
        if name ∈ seen then throw .mismatched
        else do
          let (r, s) ← f.read r (← colon s)
          pure ((r, name :: seen), s)
      | none => do
        let s ← skipValue .skim (← colon s)
        pure ((r, seen), s)
    match skipSpace s with
    | [] => .error .truncated
    | c :: s =>
      if c = ',' then readMembers fields fuel seen r s
      else if c = '}' then .ok ((r, seen), s)
      else .error .malformed

/-- Reads the fields of a record that is written as a list, after its first bracket or a field. Fields may be
missing at the end only if `partly` holds. -/
def readFields (partly : Bool) : List (Field σ) → (first : Bool) → σ → Reader σ
  | [], _, r, s =>
    match skipSpace s with
    | [] => .error .truncated
    | c :: s => if c = ']' then .ok (r, s) else .error .malformed
  | f :: fields, first, r, s =>
    match skipSpace s with
    | [] => .error .truncated
    | c :: s =>
      if c = ']' then if partly then .ok (r, s) else .error .mismatched
      else if first then do
        let (r, s) ← f.read r (c :: s)
        readFields partly fields false r s
      else if c = ',' then do
        let (r, s) ← f.read r s
        readFields partly fields false r s
      else .error .malformed

/-- A record is written as an object of its fields, in their order. It is read from an object or from a list of its
fields. Fields that are missing keep what `initial` holds if `partly`, and are a fault otherwise. -/
def record (fields : List (Field σ)) (partly : Bool) (initial : σ) : Form σ where
  write r := '{' :: commas (fields.map fun f => quoted f.name ++ ':' :: f.write r) ++ ['}']
  read s :=
    match skipSpace s with
    | [] => .error .truncated
    | c :: s =>
      if c = '[' then readFields partly fields true initial s
      else if c = '{' then do
        let ((r, seen), s) ← match skipSpace s with
          | [] => .error .truncated
          | '}' :: s => .ok ((initial, []), s)
          | s => readMembers fields (s.length + 1) [] initial s
        if partly || fields.all (fun f => f.name ∈ seen) then return (r, s) else throw .mismatched
      else .error (wrongKind (c :: s))

/-! ## Choices -/

/-- One way of a choice: a name alone, or a name with a value. -/
inductive Choice (α : Type) where
  | plain (name : String) (value : α)
  | carrying (name : String) (read : Reader α)

def Choice.name : Choice α → String
  | plain name _ => name
  | carrying name _ => name

def choiceOf (choices : List (Choice α)) (name : List Char) : Except JsonFault (Choice α) :=
  match choices.find? (·.name = String.ofList name) with
  | some choice => .ok choice
  | none => .error .mismatched

/-- A choice with a value is an object of one member. A name alone may be written as an object with `null`. -/
def readChoice (choices : List (Choice α)) : Reader α := fun s =>
  match skipSpace s with
  | [] => .error .truncated
  | c :: s =>
    if c = '{' then do
      let (name, s) ← string (← openName s)
      let choice ← choiceOf choices name
      let s ← colon s
      let (a, s) ← match choice with
        | .plain _ a => do
          let (_, s) ← null.read s
          pure (a, s)
        | .carrying _ read => read s
      match skipSpace s with
      | [] => .error .truncated
      | c :: s => if c = '}' then .ok (a, s) else .error .malformed
    else if c = '"' then do
      let (name, s) ← string s
      match ← choiceOf choices name with
      | .plain _ a => return (a, s)
      | .carrying .. => throw .mismatched
    else .error .malformed

/-- The member of an object that stands for a choice with a value. -/
def writeChoice (name : String) (value : List Char) : List Char :=
  '{' :: quoted name ++ ':' :: value ++ ['}']

end Form

end Ragged.Json

import Ragged.Json.Scan

/-!
# Passing over values

A value that nobody asked for is passed over. `Care.skim` looks only at the grammar. `Care.check` reads as a reader
that keeps every value does: the characters of strings, the range of numbers, and how deep values are nested.
-/

namespace Ragged.Json

inductive Care where
  | skim
  | check (depth : Nat)

def Care.deeper : Care → Except JsonFault Care
  | skim => .ok skim
  | check (depth + 2) => .ok (check (depth + 1))
  | check _ => .error .malformed

def Care.string : Care → List Char → Except JsonFault (List Char)
  | skim, s => skipString s
  | check _, s => (Json.string s).map Prod.snd

def Care.number : Care → List Char → Except JsonFault (List Char)
  | skim, s => skipNumber s
  | check _, s => (Json.number s).map Prod.snd

def skipScalar (care : Care) : List Char → Except JsonFault (List Char)
  | [] => .error .truncated
  | c :: s =>
    if c = 'n' then literal "null".toList (c :: s)
    else if c = 't' then literal "true".toList (c :: s)
    else if c = 'f' then literal "false".toList (c :: s)
    else if c = '"' then care.string s
    else if c = '-' ∨ c.isDigit then care.number (c :: s)
    else .error .malformed

def openName (s : List Char) : Except JsonFault (List Char) :=
  match skipSpace s with
  | [] => .error .truncated
  | c :: s => if c = '"' then .ok s else .error .malformed

def colon (s : List Char) : Except JsonFault (List Char) :=
  match skipSpace s with
  | [] => .error .truncated
  | c :: s => if c = ':' then .ok s else .error .malformed

/-- What stands in brackets: the items of a list, or of an object, which have names. -/
inductive Bracket where
  | list
  | object

def Bracket.close : Bracket → Char
  | list => ']'
  | object => '}'

def Bracket.skipName (care : Care) : Bracket → List Char → Except JsonFault (List Char)
  | list, s => .ok s
  | object, s => do colon (← care.string (← openName s))

mutual

/-- Passes over a value, in at most `fuel` steps. -/
def skipValueWith (care : Care) : Nat → List Char → Except JsonFault (List Char)
  | 0, _ => .error .malformed
  | fuel + 1, s =>
    match skipSpace s with
    | [] => .error .truncated
    | c :: s =>
      if c = '[' then do skipBracket (← care.deeper) .list fuel s
      else if c = '{' then do skipBracket (← care.deeper) .object fuel s
      else skipScalar care (c :: s)

def skipBracket (care : Care) (bracket : Bracket) : Nat → List Char → Except JsonFault (List Char)
  | 0, _ => .error .malformed
  | fuel + 1, s =>
    match skipSpace s with
    | [] => .error .truncated
    | c :: rest => if c = bracket.close then .ok rest else skipItems care bracket fuel s

def skipItems (care : Care) (bracket : Bracket) : Nat → List Char → Except JsonFault (List Char)
  | 0, _ => .error .malformed
  | fuel + 1, s => do
    let s ← bracket.skipName care s
    let s ← skipValueWith care fuel s
    match skipSpace s with
    | [] => .error .truncated
    | c :: s =>
      if c = ',' then skipItems care bracket fuel s
      else if c = bracket.close then .ok s
      else .error .malformed

end

/-- Passes over a value. A bracket takes three steps at most, and is a character of the text. -/
def skipValue (care : Care) (s : List Char) : Except JsonFault (List Char) :=
  skipValueWith care (3 * s.length + 3) s

def finish (s : List Char) : Except JsonFault Unit :=
  if skipSpace s = [] then .ok () else .error .malformed

/-- How deep values may be nested, brackets counted, where they are kept. -/
def maxDepth : Nat := 128

/-- The refusal of a text that is not JSON. -/
def fault? (text : String) (words : JsonWords := fun _ _ => "") : Option JsonRefusal :=
  match skipValue (.check maxDepth) text.toList >>= finish with
  | .ok () => none
  | .error fault => some (fault.refusal words text)

end Ragged.Json

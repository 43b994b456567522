import Ragged.Error

/-!
# The words of JSON

Space, the three literal words, strings and numbers, read from the front of a list of characters. What ends before
it is complete is `truncated`, anything else against the grammar is `malformed`.
-/

namespace Ragged.Json

/-- Reads a value from the front of a text, and answers with what follows it. -/
abbrev Reader (α : Type) := List Char → Except JsonFault (α × List Char)

def isSpace (c : Char) : Bool := c == ' ' || c == '\n' || c == '\t' || c == '\r'

def skipSpace (s : List Char) : List Char := s.dropWhile isSpace

def literal : List Char → List Char → Except JsonFault (List Char)
  | [], s => .ok s
  | _ :: _, [] => .error .truncated
  | w :: word, c :: s => if w = c then literal word s else .error .malformed

/-! ## Strings -/

/-- A piece of a string between quotes: a character, or a code written in hexadecimal digits. -/
inductive Piece where
  | char (c : Char)
  | code (n : Nat)
deriving DecidableEq

def hexDigit? (c : Char) : Option Nat :=
  if '0' ≤ c ∧ c ≤ '9' then some (c.toNat - '0'.toNat)
  else if 'a' ≤ c ∧ c ≤ 'f' then some (c.toNat - 'a'.toNat + 10)
  else if 'A' ≤ c ∧ c ≤ 'F' then some (c.toNat - 'A'.toNat + 10)
  else none

def code? (a b c d : Char) : Option Nat := do
  return (((← hexDigit? a) * 16 + (← hexDigit? b)) * 16 + (← hexDigit? c)) * 16 + (← hexDigit? d)

def escaped? (c : Char) : Option Char :=
  [('"', '"'), ('\\', '\\'), ('/', '/'), ('b', '\x08'), ('f', '\x0c'), ('n', '\n'), ('r', '\r'), ('t', '\t')].lookup c

/-- The fault of a code before fewer than four characters. It is cut short if there are fewer than four bytes. -/
def codeFault (s : List Char) : JsonFault :=
  if (s.map Char.utf8Size).foldr (· + ·) 0 < 4 then .truncated else .malformed

/-- The pieces up to the closing quote, or up to a fault, and what follows. -/
def pieces : List Char → List Piece × Except JsonFault (List Char)
  | [] => ([], .error .truncated)
  | c :: s =>
    if c = '"' then ([], .ok s)
    else if c = '\\' then
      match s with
      | [] => ([], .error .truncated)
      | e :: s =>
        if e = 'u' then
          match s with
          | h₁ :: h₂ :: h₃ :: h₄ :: s =>
            match code? h₁ h₂ h₃ h₄ with
            | some n => let (ps, r) := pieces s; (.code n :: ps, r)
            | none => ([], .error .malformed)
          | s => ([], .error (codeFault s))
        else
          match escaped? e with
          | some c => let (ps, r) := pieces s; (.char c :: ps, r)
          | none => ([], .error .malformed)
    else if c < ' ' then ([], .error .malformed)
    else let (ps, r) := pieces s; (.char c :: ps, r)

def isHighSurrogate (n : Nat) : Bool := 0xD800 ≤ n && n ≤ 0xDBFF

def isLowSurrogate (n : Nat) : Bool := 0xDC00 ≤ n && n ≤ 0xDFFF

/-- The characters of pieces that end with `r`. A code above the sixteen-bit range is written as a pair of
surrogates, which stand nowhere else. -/
def joined (r : Except JsonFault (List Char)) : List Piece → Except JsonFault (List Char × List Char)
  | [] => do return ([], ← r)
  | .char c :: ps => do
    let (cs, s) ← joined r ps
    return (c :: cs, s)
  | .code n :: ps =>
    if isHighSurrogate n then
      match ps with
      | [] => do let _ ← r; throw .malformed
      | .char _ :: _ => .error .malformed
      | .code m :: ps =>
        if isLowSurrogate m then do
          let (cs, s) ← joined r ps
          return (Char.ofNat (0x10000 + (n - 0xD800) * 0x400 + (m - 0xDC00)) :: cs, s)
        else .error .malformed
    else if isLowSurrogate n then .error .malformed
    else do
      let (cs, s) ← joined r ps
      return (Char.ofNat n :: cs, s)

def string : Reader (List Char) := fun s =>
  let (ps, r) := pieces s
  joined r ps

/-- Passes over a string whose opening quote has been read. Its codes need not be characters. -/
def skipString (s : List Char) : Except JsonFault (List Char) := (pieces s).2

/-! ## Numbers -/

def integerDigits : Reader (List Char)
  | [] => .error .truncated
  | c :: s =>
    let digits := (c :: s).takeWhile Char.isDigit
    if digits = [] ∨ (c = '0' ∧ digits.length ≠ 1) then .error .malformed
    else .ok (digits, (c :: s).dropWhile Char.isDigit)

def digits (s : List Char) : Except JsonFault (List Char × List Char) :=
  if s = [] then .error .truncated
  else if s.takeWhile Char.isDigit = [] then .error .malformed
  else .ok (s.takeWhile Char.isDigit, s.dropWhile Char.isDigit)

def fraction? : Reader (Option (List Char))
  | c :: s =>
    if c = '.' then do
      let (ds, s) ← digits s
      return (some ds, s)
    else .ok (none, c :: s)
  | [] => .ok (none, [])

def exponentSign : List Char → Bool × List Char
  | c :: s => if c = '-' then (true, s) else if c = '+' then (false, s) else (false, c :: s)
  | [] => (false, [])

def exponent? : Reader (Option (Bool × List Char))
  | c :: s =>
    if c = 'e' ∨ c = 'E' then do
      let (negative, s) := exponentSign s
      let (ds, s) ← digits s
      return (some (negative, ds), s)
    else .ok (none, c :: s)
  | [] => .ok (none, [])

structure Numeral where
  integer : List Char
  fraction : Option (List Char)
  exponent : Option (Bool × List Char)

def numeral : Reader Numeral := fun s => do
  let (integer, s) ← integerDigits s
  let (fraction, s) ← fraction? s
  let (exponent, s) ← exponent? s
  return (⟨integer, fraction, exponent⟩, s)

/-- Reads digits after the number `n` while the result is a word, and counts the digits that are left. -/
def absorb (n : Nat) : List Char → Nat × Nat
  | [] => (n, 0)
  | c :: cs =>
    let m := n * 10 + (c.toNat - '0'.toNat)
    if m < 18446744073709551616 then absorb m cs else (n, cs.length + 1)

def natOfDigits (ds : List Char) : Nat :=
  ds.foldl (fun n c => n * 10 + (c.toNat - '0'.toNat)) 0

/-- The nearest number with at most 53 binary digits, and of two the one with an even last digit. -/
def roundToDouble (n : Nat) : Nat :=
  if n < Nat.pow 2 53 then n
  else
    let unit := Nat.pow 2 (n.log2 - 52)
    let low := n / unit
    if unit < 2 * (n % unit) ∨ (unit = 2 * (n % unit) ∧ low % 2 = 1) then (low + 1) * unit else low * unit

/-- Whether `n * 10 ^ e` is beyond the largest double, with both factors rounded first. -/
def beyondDoubles (n : Nat) (e : Int) : Bool :=
  n ≠ 0 && 0 ≤ e && (308 < e || Nat.pow 2 1024 - Nat.pow 2 970 ≤ roundToDouble n * roundToDouble (Nat.pow 10 e.toNat))

namespace Numeral

/-- The digits as a word and the power of ten it is taken to. Digits that do not fit count only as places. -/
def scaled (n : Numeral) : Nat × Int :=
  let (word, left) := absorb 0 n.integer
  let fraction := n.fraction.getD []
  let (word, dropped) := absorb word fraction
  let places : Int := left - (fraction.length - dropped : Nat)
  match n.exponent with
  | none => (word, places)
  | some (false, ds) => (word, places + natOfDigits ds)
  | some (true, ds) => (word, places - natOfDigits ds)

def word? (n : Numeral) : Option Nat :=
  match n.fraction, n.exponent, absorb 0 n.integer with
  | none, none, (word, 0) => some word
  | _, _, _ => none

end Numeral

/-- A number with its sign. It is `some` if it is written as a word, and none for any other number, which must be
in the range of the doubles. -/
def number : Reader (Option Nat)
  | [] => .error .truncated
  | c :: s => do
    let (n, rest) ← numeral (if c = '-' then s else c :: s)
    match n.word? with
    | some word => return (if c = '-' then none else some word, rest)
    | none =>
      let (word, places) := n.scaled
      if beyondDoubles word places then throw .malformed
      return (none, rest)

/-- Passes over a number. One that is cut short is no number. -/
def skipNumber : List Char → Except JsonFault (List Char)
  | [] => .error .malformed
  | c :: s =>
    match numeral (if c = '-' then s else c :: s) with
    | .ok (_, s) => .ok s
    | .error _ => .error .malformed

end Ragged.Json

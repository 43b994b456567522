import Ragged.Outcome

/-!
# Words

Extents, counts, offsets and lengths are machine words: naturals below `bound`. A sum or product that is no word
is `none` for the operations with a question mark, the largest word for the saturating ones, and a trap for the
plain ones.
-/

namespace Ragged.Word

def bound : Nat := 18446744073709551616

def last : Nat := bound - 1

def add? (a b : Nat) : Option Nat := if a + b < bound then some (a + b) else none

def mul? (a b : Nat) : Option Nat := if a * b < bound then some (a * b) else none

def satAdd (a b : Nat) : Nat := min (a + b) last

def satMul (a b : Nat) : Nat := min (a * b) last

def add (a b : Nat) : Outcome Nat := if a + b < bound then .ok (a + b) else .trap

def sub (a b : Nat) : Outcome Nat := if b ≤ a then .ok (a - b) else .trap

def mul (a b : Nat) : Outcome Nat := if a * b < bound then .ok (a * b) else .trap

def div (a b : Nat) : Outcome Nat := if b = 0 then .trap else .ok (a / b)

def mod (a b : Nat) : Outcome Nat := if b = 0 then .trap else .ok (a % b)

/-- How many pieces of size `b` cover `a`. -/
def ceilDiv (a b : Nat) : Outcome Nat := if b = 0 then .trap else .ok ((a + b - 1) / b)

/-- The product of a list, from its first member on. -/
def product : List Nat → Outcome Nat :=
  List.foldlM mul 1

/-- The sum of products of two lists, from their first members on. -/
def dot (xs ys : List Nat) : Outcome Nat :=
  (xs.zip ys).foldlM (fun acc (x, y) => do add acc (← mul x y)) 0

end Ragged.Word

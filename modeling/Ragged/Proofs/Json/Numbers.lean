import Ragged.Json.Form
import Ragged.Proofs.Json.Tokens

/-!
# Numbers in JSON texts

What the grammar calls a number is read up to its end. The digits of a natural number are such a number, and are read
as what they were written for.
-/

namespace Ragged.Json

def Digits (ds : List Char) : Prop := ds ≠ [] ∧ ∀ d ∈ ds, d.isDigit = true

inductive IsInteger : List Char → Prop
  | zero : IsInteger ['0']
  | leading {d : Char} {ds : List Char} (hd : d.isDigit = true) (h0 : d ≠ '0') (hds : ∀ e ∈ ds, e.isDigit = true) :
      IsInteger (d :: ds)

inductive IsFraction : List Char → Prop
  | absent : IsFraction []
  | digits {ds : List Char} (hds : Digits ds) : IsFraction ('.' :: ds)

inductive IsExponent : List Char → Prop
  | absent : IsExponent []
  | digits {e : Char} {sign ds : List Char} (he : e = 'e' ∨ e = 'E') (hsign : sign = [] ∨ sign = ['+'] ∨ sign = ['-'])
      (hds : Digits ds) : IsExponent (e :: (sign ++ ds))

inductive IsNumber : Token → Prop
  | mk {sign integer fraction exponent : List Char} (hsign : sign = [] ∨ sign = ['-']) (hi : IsInteger integer)
      (hf : IsFraction fraction) (he : IsExponent exponent) : IsNumber (sign ++ (integer ++ (fraction ++ exponent)))

theorem IsInteger.digits {i : List Char} (h : IsInteger i) : Digits i := by
  cases h with
  | zero => exact ⟨nofun, List.forall_mem_singleton.mpr rfl⟩
  | leading hd h0 hds => exact ⟨nofun, List.forall_mem_cons.mpr ⟨hd, hds⟩⟩

theorem IsInteger.head {i : List Char} (h : IsInteger i) : ∃ d ds, i = d :: ds ∧ d.isDigit = true := by
  cases h with
  | zero => exact ⟨'0', [], rfl, rfl⟩
  | leading hd => exact ⟨_, _, rfl, hd⟩

theorem isSpace_of_isDigit {d : Char} (h : d.isDigit = true) : isSpace d = false := by
  rw [Bool.eq_false_iff, Ne, isSpace_iff]
  rintro (rfl | rfl | rfl | rfl) <;> cases h

section
variable {s : List Char} (hs : ∀ c ∈ s.head?, c.isDigit = false)
include hs

theorem takeWhile_digits {ds : List Char} (hds : ∀ d ∈ ds, d.isDigit = true) :
    (ds ++ s).takeWhile Char.isDigit = ds ∧ (ds ++ s).dropWhile Char.isDigit = s := by
  rw [List.takeWhile_append_of_pos hds, List.dropWhile_append_of_pos hds]
  cases s with
  | nil => exact ⟨List.append_nil ds, rfl⟩
  | cons c s =>
    have hc : ¬ c.isDigit = true := by
      rw [hs c rfl]
      exact Bool.false_ne_true
    rw [List.takeWhile_cons_of_neg hc, List.dropWhile_cons_of_neg hc]
    exact ⟨List.append_nil ds, rfl⟩

theorem digits_eq_ok {ds : List Char} (h : Digits ds) : digits (ds ++ s) = .ok (ds, s) := by
  obtain ⟨htake, hdrop⟩ := takeWhile_digits hs h.2
  rw [digits, htake, hdrop, if_neg (by simp [h.1]), if_neg h.1]

theorem integerDigits_eq_ok {i : List Char} (h : IsInteger i) : integerDigits (i ++ s) = .ok (i, s) := by
  obtain ⟨htake, hdrop⟩ := takeWhile_digits hs h.digits.2
  cases h with
  | zero =>
    rw [List.singleton_append] at htake hdrop ⊢
    rw [integerDigits, htake, hdrop]
    rfl
  | leading hd h0 hds =>
    rw [List.cons_append] at htake hdrop ⊢
    rw [integerDigits, htake, hdrop]
    simp [h0]

end

theorem fraction?_eq_ok {f s : List Char} (h : IsFraction f) (hs : ∀ c ∈ s.head?, c.isDigit = false ∧ c ≠ '.') :
    ∃ fraction, fraction? (f ++ s) = .ok (fraction, s) ∧ (f = [] → fraction = none) := by
  cases h with
  | absent =>
    refine ⟨none, ?_, fun _ => rfl⟩
    cases s with
    | nil => rfl
    | cons c s => rw [List.nil_append, fraction?, if_neg (hs c rfl).2]
  | @digits ds hds =>
    refine ⟨some ds, ?_, nofun⟩
    rw [List.cons_append, fraction?, if_pos rfl, digits_eq_ok (fun c hc => (hs c hc).1) hds]
    rfl

theorem exponentSign_append {sign ds s : List Char} (hsign : sign = [] ∨ sign = ['+'] ∨ sign = ['-']) (hds : Digits ds) :
    ∃ negative, exponentSign (sign ++ (ds ++ s)) = (negative, ds ++ s) := by
  rcases hsign with rfl | rfl | rfl
  · cases ds with
    | nil => exact absurd rfl hds.1
    | cons d ds =>
      have hd := hds.2 d List.mem_cons_self
      have hminus : d ≠ '-' := by
        rintro rfl
        exact absurd hd (by decide)
      have hplus : d ≠ '+' := by
        rintro rfl
        exact absurd hd (by decide)
      exact ⟨false, by rw [List.nil_append, List.cons_append, exponentSign, if_neg hminus, if_neg hplus]⟩
  · exact ⟨false, rfl⟩
  · exact ⟨true, rfl⟩

section
variable {s : List Char} (hs : Delimited s)
include hs

theorem exponent?_eq_ok {e : List Char} (h : IsExponent e) :
    ∃ exponent, exponent? (e ++ s) = .ok (exponent, s) ∧ (e = [] → exponent = none) := by
  cases h with
  | absent =>
    refine ⟨none, ?_, fun _ => rfl⟩
    cases s with
    | nil => rfl
    | cons c s =>
      obtain ⟨-, -, he, hE⟩ := hs.not_mem rfl
      rw [List.nil_append, exponent?, if_neg (by simp [he, hE])]
  | @digits e sign ds he hsign hds =>
    have hdigits : digits (ds ++ s) = .ok (ds, s) := digits_eq_ok (fun c hc => (hs.not_mem hc).1) hds
    obtain ⟨negative, hsigned⟩ := exponentSign_append (s := s) hsign hds
    refine ⟨some (negative, ds), ?_, nofun⟩
    rw [List.cons_append, List.append_assoc, exponent?, if_pos he, hsigned]
    dsimp only
    rw [hdigits]
    rfl

/-- A number is read up to its end. Without a fraction and an exponent it is read as an integer. -/
theorem numeral_eq_ok {i f e : List Char} (hi : IsInteger i) (hf : IsFraction f) (he : IsExponent e) :
    ∃ fraction exponent, numeral (i ++ (f ++ (e ++ s))) = .ok (⟨i, fraction, exponent⟩, s) ∧
      (f = [] → fraction = none) ∧ (e = [] → exponent = none) := by
  have hexponent : ∀ c ∈ (e ++ s).head?, c.isDigit = false ∧ c ≠ '.' := by
    intro c hc
    cases he with
    | absent => exact ⟨(hs.not_mem hc).1, (hs.not_mem hc).2.1⟩
    | digits he =>
      obtain rfl := Option.some.inj hc
      rcases he with rfl | rfl <;> decide
  have hfraction : ∀ c ∈ (f ++ (e ++ s)).head?, c.isDigit = false := by
    intro c hc
    cases hf with
    | absent => exact (hexponent c hc).1
    | digits =>
      obtain rfl := Option.some.inj hc
      rfl
  obtain ⟨fraction, hfrac, hnof⟩ := fraction?_eq_ok hf hexponent
  obtain ⟨exponent, hexp, hnoe⟩ := exponent?_eq_ok hs he
  refine ⟨fraction, exponent, ?_, hnof, hnoe⟩
  rw [numeral, integerDigits_eq_ok hfraction hi]
  simp only [bind, Except.bind, hfrac, hexp]
  rfl

theorem skipNumber_eq_ok {t : Token} (h : IsNumber t) : skipNumber (t ++ s) = .ok s := by
  obtain ⟨hsign, hi, hf, he⟩ := h
  obtain ⟨fraction, exponent, hnumeral, -, -⟩ := numeral_eq_ok hs hi hf he
  obtain ⟨d, ds, rfl, hd⟩ := IsInteger.head hi
  have hminus : d ≠ '-' := by
    rintro rfl
    exact absurd hd (by decide)
  rcases hsign with rfl | rfl
  · simp only [List.nil_append, List.cons_append, List.append_assoc] at hnumeral ⊢
    rw [skipNumber, if_neg hminus, hnumeral]
  · simp only [List.cons_append, List.nil_append, List.append_assoc] at hnumeral ⊢
    rw [skipNumber, if_pos rfl, hnumeral]

end

/-! ## Natural numbers -/

theorem toDigits_head {n : Nat} (h : n ≠ 0) : (Nat.toDigits 10 n).head? ≠ some '0' := by
  induction n using Nat.strongRecOn with
  | ind n ih =>
    by_cases hn : n < 10
    · rw [Nat.toDigits_of_lt_base hn, List.head?_cons, Ne, Option.some.injEq]
      intro hzero
      have hvalue := Nat.toNat_digitChar_of_lt_ten hn
      rw [hzero, show '0'.toNat = 48 from rfl] at hvalue
      omega
    · have hrest := ih (n / 10) (by omega) (by omega)
      rw [Nat.toDigits_of_base_le (by omega) (by omega), List.head?_append]
      cases hhead : (Nat.toDigits 10 (n / 10)).head? with
      | none => exact absurd (List.head?_eq_none_iff.mp hhead) Nat.toDigits_ne_nil
      | some d => rwa [hhead] at hrest

theorem isInteger_writeNat (n : Nat) : IsInteger (Form.writeNat n) := by
  unfold Form.writeNat
  by_cases hn : n = 0
  · rw [hn, Nat.toDigits_zero]
    exact .zero
  · have hdigit : ∀ d ∈ Nat.toDigits 10 n, d.isDigit = true := fun d hd =>
      Nat.isDigit_of_mem_toDigits (by decide) (by decide) hd
    have hhead := toDigits_head hn
    cases hds : Nat.toDigits 10 n with
    | nil => exact absurd hds Nat.toDigits_ne_nil
    | cons d ds =>
      rw [hds] at hdigit hhead
      rw [List.forall_mem_cons] at hdigit
      exact .leading hdigit.1 (fun h0 => hhead (congrArg some h0)) hdigit.2

theorem le_ofDigitChars (ds : List Char) (n : Nat) : n ≤ Nat.ofDigitChars 10 ds n := by
  induction ds generalizing n with
  | nil => exact Nat.le_of_eq Nat.ofDigitChars_nil.symm
  | cons d ds ih =>
    rw [Nat.ofDigitChars_cons]
    have := ih (10 * n + (d.toNat - '0'.toNat))
    omega

theorem absorb_eq {ds : List Char} {n : Nat} (h : Nat.ofDigitChars 10 ds n < 18446744073709551616) :
    absorb n ds = (Nat.ofDigitChars 10 ds n, 0) := by
  induction ds generalizing n with
  | nil => rw [absorb, Nat.ofDigitChars_nil]
  | cons d ds ih =>
    rw [Nat.ofDigitChars_cons] at h ⊢
    have hnext := le_ofDigitChars ds (10 * n + (d.toNat - '0'.toNat))
    rw [absorb, Nat.mul_comm n 10, if_pos (by omega), ih h]

theorem readNat_eq_ok {n bound : Nat} (hn : n < bound) (hbound : bound ≤ 18446744073709551616) {s rest : List Char}
    (hs : Spaced [Form.writeNat n] s) (hrest : Delimited rest) : Form.readNat bound (s ++ rest) = .ok (n, rest) := by
  obtain ⟨fraction, exponent, hnumeral, hf, he⟩ := numeral_eq_ok hrest (isInteger_writeNat n) .absent .absent
  obtain rfl := hf rfl
  obtain rfl := he rfl
  have hvalue : Nat.ofDigitChars 10 (Form.writeNat n) 0 = n := Nat.ofDigitChars_ten_toDigits
  have habsorb : absorb 0 (Form.writeNat n) = (n, 0) := by
    rw [absorb_eq (by omega), hvalue]
  have hword : (⟨Form.writeNat n, none, none⟩ : Numeral).word? = some n := by
    simp only [Numeral.word?, habsorb]
  obtain ⟨d, ds, hds, hd⟩ := (isInteger_writeNat n).head
  have hminus : d ≠ '-' := by
    rintro rfl
    exact absurd hd (by decide)
  rw [hds] at hs hnumeral hword
  have hskip := hs.skip_last (isSpace_of_isDigit hd) rest
  rw [Form.readNat, hskip]
  dsimp only
  rw [if_pos (.inr hd), number, if_neg hminus]
  rw [List.nil_append, List.nil_append, List.cons_append] at hnumeral
  rw [hnumeral, ok_bind]
  dsimp only
  rw [hword]
  simp [hminus, hn]

end Ragged.Json

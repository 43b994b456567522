import Ragged.Json.Skip

/-!
# Tokens with space between them

A JSON text is a row of tokens with any space before each of them. Readers pass over the space in front of a token, and
need to know what follows it only after a number, which has no end of its own.
-/

namespace Ragged.Json

section
variable {α β : Type}

@[simp] theorem ok_bind (a : α) (f : α → Except JsonFault β) : (Except.ok a >>= f) = f a := rfl

@[simp] theorem pure_eq (a : α) : (pure a : Except JsonFault α) = .ok a := rfl

end

theorem isSpace_iff {c : Char} : isSpace c = true ↔ c = ' ' ∨ c = '\n' ∨ c = '\t' ∨ c = '\r' := by
  simp [isSpace, or_assoc]

abbrev Token := List Char

inductive Spaced : List Token → List Char → Prop
  | nil : Spaced [] []
  | cons {t : Token} {ts : List Token} {space s : List Char} (hspace : ∀ c ∈ space, isSpace c = true) (ht : t ≠ [])
      (rest : Spaced ts s) : Spaced (t :: ts) (space ++ (t ++ s))

theorem skipSpace_append {space : List Char} (h : ∀ c ∈ space, isSpace c = true) (s : List Char) :
    skipSpace (space ++ s) = skipSpace s :=
  List.dropWhile_append_of_pos h

theorem skipSpace_cons {c : Char} (h : isSpace c = false) (s : List Char) : skipSpace (c :: s) = c :: s :=
  List.dropWhile_cons_of_neg (by rw [h]; exact Bool.false_ne_true)

namespace Spaced

variable {ts us : List Token} {s rest : List Char}

theorem flatten (h : ∀ t ∈ ts, t ≠ []) : Spaced ts ts.flatten := by
  induction ts with
  | nil => exact .nil
  | cons t ts ih =>
    rw [List.forall_mem_cons] at h
    exact @Spaced.cons t ts [] _ nofun h.1 (ih h.2)

theorem length_le (h : Spaced ts s) : ts.length ≤ s.length := by
  induction h with
  | nil => exact Nat.le_refl 0
  | @cons t ts space s hspace ht rest ih =>
    have := List.length_pos_iff.mpr ht
    simp only [List.length_cons, List.length_append]
    omega

theorem split (h : Spaced (ts ++ us) s) : ∃ a b, s = a ++ b ∧ Spaced ts a ∧ Spaced us b := by
  induction ts generalizing s with
  | nil => exact ⟨[], s, rfl, .nil, h⟩
  | cons t ts ih =>
    cases h with
    | @cons _ _ space s hspace ht hrest =>
      obtain ⟨a, b, rfl, ha, hb⟩ := ih hrest
      exact ⟨space ++ (t ++ a), b, by simp only [List.append_assoc], .cons hspace ht ha, hb⟩

variable {c : Char} {t : Token}

theorem skip (h : Spaced ((c :: t) :: ts) s) (hc : isSpace c = false) (rest : List Char) :
    ∃ s', Spaced ts s' ∧ skipSpace (s ++ rest) = c :: (t ++ (s' ++ rest)) := by
  cases h with
  | @cons _ _ space s' hspace ht hrest =>
    refine ⟨s', hrest, ?_⟩
    rw [List.append_assoc, skipSpace_append hspace, List.append_assoc, List.cons_append, skipSpace_cons hc]

theorem skip_last (h : Spaced [c :: t] s) (hc : isSpace c = false) (rest : List Char) :
    skipSpace (s ++ rest) = c :: (t ++ rest) := by
  obtain ⟨s', hnil, hskip⟩ := h.skip hc rest
  cases hnil
  exact hskip

theorem respace (h : Spaced ts s) : Spaced ((c :: t) :: ts) ((c :: t) ++ s) := .cons (List.forall_mem_nil _) nofun h

end Spaced

/-! ## What follows a value -/

/-- The text ends here, or the next character is no part of a number. -/
def Delimited (s : List Char) : Prop := ∀ c ∈ s.head?, isSpace c = true ∨ c = ',' ∨ c = ']' ∨ c = '}'

theorem delimited_nil : Delimited [] := nofun

theorem delimited_space {space s : List Char} (hspace : ∀ c ∈ space, isSpace c = true) (h : Delimited s) :
    Delimited (space ++ s) := by
  cases space with
  | nil => exact h
  | cons c space =>
    intro d hd
    obtain rfl : c = d := Option.some.inj hd
    exact .inl (hspace c List.mem_cons_self)

theorem Spaced.delimited {c : Char} {t : Token} {ts : List Token} {s : List Char} (h : Spaced ((c :: t) :: ts) s)
    (hc : c = ',' ∨ c = ']' ∨ c = '}') (rest : List Char) : Delimited (s ++ rest) := by
  cases h with
  | @cons _ _ space s hspace ht hrest =>
    rw [List.append_assoc]
    apply delimited_space hspace
    intro d hd
    obtain rfl : c = d := Option.some.inj hd
    exact .inr hc

theorem Delimited.not_mem {s : List Char} (h : Delimited s) {c : Char} (hc : c ∈ s.head?) :
    c.isDigit = false ∧ c ≠ '.' ∧ c ≠ 'e' ∧ c ≠ 'E' := by
  rcases h c hc with hspace | rfl | rfl | rfl
  · rcases isSpace_iff.mp hspace with rfl | rfl | rfl | rfl <;> decide
  · decide
  · decide
  · decide

end Ragged.Json

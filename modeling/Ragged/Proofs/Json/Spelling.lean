import Ragged.Proofs.Json.Grammar

/-!
# Spelled forms

A form is spelled by tokens if it writes them one after the other, and reads them with any space between them. Forms
that are made of spelled forms are spelled.
-/

namespace Ragged.Json

theorem isNumber_of_isInteger {t : Token} (h : IsInteger t) : IsNumber t := by
  have hnumber := IsNumber.mk (.inl rfl) h .absent .absent
  rwa [List.nil_append, List.append_nil, List.append_nil] at hnumber

theorem Spaced.skip_quoted {name : String} {ts : List Token} {s : List Char} (h : Spaced (Form.quoted name :: ts) s)
    (rest : List Char) :
    ∃ s', Spaced ts s' ∧ skipSpace (s ++ rest) = '"' :: (name.toList ++ '"' :: (s' ++ rest)) := by
  have h : Spaced (('"' :: (name.toList ++ ['"'])) :: ts) s := h
  obtain ⟨s', hs', hskip⟩ := h.skip (by decide) rest
  refine ⟨s', hs', ?_⟩
  rw [hskip, List.append_assoc]
  rfl

/-- A reader that passes over space comes to the first of some rows, which closes no bracket, and more of the text is
left than there are rows. -/
theorem Spaced.skip_separated {ts : List Token} {tss : List (List Token)} (ho : Opens ts) {close : List Token}
    {s : List Char} (h : Spaced (separated (ts :: tss) ++ close) s) (rest : List Char) :
    ∃ c t s', skipSpace (s ++ rest) = c :: t ∧ c ≠ ']' ∧ c ≠ '}' ∧ c :: t = s' ++ rest ∧
      Spaced (separated (ts :: tss) ++ close) s' ∧ tss.length < (c :: t).length + 1 := by
  have hlength := length_le_separated ts tss
  obtain ⟨c, t, ts, rfl, hspace, hlist, hobject⟩ := ho
  obtain ⟨us, hus⟩ := separated_head (c :: t) ts tss
  rw [hus, List.cons_append] at h
  obtain ⟨s', hs', hskip⟩ := h.skip hspace rest
  have htext := hs'.length_le
  refine ⟨c, _, (c :: t) ++ s', hskip, hlist, hobject, by rw [List.append_assoc]; rfl, ?_, ?_⟩
  · rw [hus]
    exact hs'.respace
  · rw [hus] at hlength
    simp only [List.length_cons, List.length_append] at hlength htext ⊢
    omega

theorem isString_quoted {name : String} (h : PlainName name) : IsString (Form.quoted name) :=
  .mk (isBody_of_plain h)

namespace Form

variable {α : Type}

structure Spelled (form : Form α) (tokens : α → List Token) : Prop where
  json : ∀ a, IsValue (tokens a)
  write_eq : ∀ a, form.write a = (tokens a).flatten
  read_eq : ∀ {a s rest}, Spaced (tokens a) s → Delimited rest → form.read (s ++ rest) = .ok (a, rest)

/-- A text of tokens with any space between and around them. -/
def IsText (ts : List Token) (text : String) : Prop :=
  ∃ s space, text.toList = s ++ space ∧ Spaced ts s ∧ ∀ c ∈ space, isSpace c = true

theorem parse_eq_ok {form : Form α} {a : α} {ts : List Token} {text : String} (ht : IsText ts text)
    (hread : ∀ {s rest}, Spaced ts s → Delimited rest → form.read (s ++ rest) = .ok (a, rest)) (words : JsonWords) :
    form.parse text words = .ok a := by
  obtain ⟨s, space, htext, hs, hspace⟩ := ht
  have hend : skipSpace space = [] := by
    have hskip := skipSpace_append hspace []
    rwa [List.append_nil] at hskip
  have hdelimited := delimited_space hspace delimited_nil
  rw [List.append_nil] at hdelimited
  rw [parse, readAll, htext, hread hs hdelimited, ok_bind]
  simp only [finish, hend, if_true]
  rfl

namespace Spelled

variable {form : Form α} {tokens : α → List Token} (h : form.Spelled tokens)
include h

theorem isText_text (a : α) : IsText (tokens a) (form.text a) := by
  refine ⟨(tokens a).flatten, [], ?_, Spaced.flatten (h.json a).ne_nil, nofun⟩
  rw [text, String.toList_ofList, h.write_eq, List.append_nil]

theorem parse_text (a : α) (words : JsonWords) : form.parse (form.text a) words = .ok a :=
  parse_eq_ok (h.isText_text a) h.read_eq words

end Spelled

/-! ## Scalars -/

def wordTokens (n : UInt64) : List Token := [writeNat n.toNat]

theorem word_spelled : word.Spelled wordTokens where
  json n := .scalar (.number (isNumber_of_isInteger (isInteger_writeNat n.toNat)))
  write_eq n := (List.append_nil _).symm
  read_eq {n s rest} hs hrest := by
    have hread := readNat_eq_ok (UInt64.toNat_lt n) (Nat.le_refl _) hs hrest
    simp only [word, hread, ok_bind, UInt64.ofNat_toNat]
    rfl

theorem wordTokens_head {n : UInt64} {t : Token} {ts : List Token} (h : wordTokens n = t :: ts) :
    t.head? ≠ some 'n' := by
  obtain ⟨rfl, -⟩ := List.cons.inj h
  obtain ⟨d, ds, hd, hdigit⟩ := (isInteger_writeNat n.toNat).head
  rw [hd, List.head?_cons, Ne, Option.some.injEq]
  rintro rfl
  cases hdigit

def byteTokens (n : UInt8) : List Token := [writeNat n.toNat]

theorem byte_spelled : byte.Spelled byteTokens where
  json n := .scalar (.number (isNumber_of_isInteger (isInteger_writeNat n.toNat)))
  write_eq n := (List.append_nil _).symm
  read_eq {n s rest} hs hrest := by
    have hread := readNat_eq_ok (UInt8.toNat_lt n) (by decide) hs hrest
    simp only [byte, hread, ok_bind, UInt8.ofNat_toNat]
    rfl

def boolTokens (b : Bool) : List Token := [(if b then "true" else "false").toList]

theorem bool_spelled : bool.Spelled boolTokens where
  json b := .scalar (.literal (by cases b <;> decide))
  write_eq b := (List.append_nil _).symm
  read_eq {b s rest} hs hrest := by
    cases b with
    | true =>
      have hskip := Spaced.skip_last hs rfl rest
      simp only [bool, hskip]
      rfl
    | false =>
      have hskip := Spaced.skip_last hs rfl rest
      simp only [bool, hskip]
      rfl

/-! ## Options and lists -/

section
variable {form : Form α} {tokens : α → List Token}

def optionTokens (tokens : α → List Token) : Option α → List Token
  | none => ["null".toList]
  | some a => tokens a

theorem option_spelled (h : form.Spelled tokens) (hn : ∀ a t ts, tokens a = t :: ts → t.head? ≠ some 'n') :
    (option form).Spelled (optionTokens tokens) where
  json a := by
    cases a with
    | none => exact .scalar (.literal (by decide))
    | some a => exact h.json a
  write_eq a := by
    cases a with
    | none => rfl
    | some a => exact h.write_eq a
  read_eq {a s rest} hs hrest := by
    cases a with
    | none =>
      have hskip := Spaced.skip_last hs rfl rest
      simp only [option, hskip]
      rfl
    | some a =>
      obtain ⟨c, t, ts, hopen, hspace, -, -⟩ := (h.json a).opens
      have hne : c ≠ 'n' := fun hc => hn a _ _ hopen (congrArg some hc)
      have hread := @h.read_eq a
      rw [optionTokens, hopen] at hs
      rw [hopen] at hread
      obtain ⟨s', hs', hskip⟩ := hs.skip hspace rest
      have hread := hread (Spaced.respace hs') hrest
      simp only [List.append_assoc, List.cons_append] at hread
      simp only [option, hskip]
      split
      · rename_i heq
        exact absurd (List.cons.inj heq).1 hne
      · rw [hread]
        rfl

def listTokens (tokens : α → List Token) (as : List α) : List Token := bracketed .list (as.map tokens)

theorem flatten_separated (tss : List (List Token)) : (separated tss).flatten = commas (tss.map List.flatten) := by
  induction tss with
  | nil => rfl
  | cons ts tss ih =>
    cases tss with
    | nil => rfl
    | cons ts' tss =>
      rw [separated_cons, List.flatten_append, List.flatten_cons, ih]
      rfl

theorem flatten_bracketed (tss : List (List Token)) :
    (bracketed .list tss).flatten = '[' :: commas (tss.map List.flatten) ++ [']'] := by
  rw [bracketed, List.flatten_cons, List.flatten_append, flatten_separated]
  rfl

theorem readItems_eq_ok (h : form.Spelled tokens) {a : α} {as : List α} {s rest : List Char} {fuel : Nat}
    (hs : Spaced (separated ((a :: as).map tokens) ++ [[']']]) s) (hfuel : as.length < fuel) :
    readItems form fuel (s ++ rest) = .ok (a :: as, rest) := by
  obtain ⟨fuel, rfl⟩ : ∃ n, fuel = n + 1 := ⟨fuel - 1, by omega⟩
  induction as generalizing a s fuel with
  | nil =>
    obtain ⟨s₁, s₂, rfl, hs₁, hdelimited, hskip⟩ := hs.last (.inl rfl) rest
    rw [readItems, List.append_assoc, h.read_eq hs₁ hdelimited, ok_bind]
    dsimp only
    rw [hskip]
    rfl
  | cons b as ih =>
    obtain ⟨fuel, rfl⟩ : ∃ n, fuel = n + 1 := ⟨fuel - 1, by rw [List.length_cons] at hfuel; omega⟩
    obtain ⟨s₁, s₂, s', rfl, hs₁, hdelimited, hskip, hs'⟩ := hs.next rest
    rw [readItems, List.append_assoc, h.read_eq hs₁ hdelimited, ok_bind]
    dsimp only
    rw [hskip]
    dsimp only
    rw [if_pos rfl, ih hs' fuel (Nat.lt_of_succ_lt_succ hfuel)]
    rfl

theorem list_spelled (h : form.Spelled tokens) : (list form).Spelled (listTokens tokens) where
  json as := by
    refine .list fun ts hts => ?_
    obtain ⟨a, -, rfl⟩ := List.mem_map.mp hts
    exact h.json a
  write_eq as := by
    have hwrite : form.write = fun a => (tokens a).flatten := funext h.write_eq
    rw [listTokens, flatten_bracketed, List.map_map, list, hwrite]
    rfl
  read_eq {as s rest} hs hrest := by
    have hs : Spaced (['['] :: (separated (as.map tokens) ++ [[']']])) s := hs
    obtain ⟨s', hs', hskip⟩ := hs.skip (by decide) rest
    simp only [list, hskip, if_true, List.nil_append]
    cases as with
    | nil =>
      simp only [Spaced.skip_last hs' (by decide) rest]
      rfl
    | cons a as =>
      obtain ⟨c, t, s'', hskip', hclose, -, htext, hs'', hfuel⟩ := hs'.skip_separated (h.json a).opens rest
      rw [List.length_map] at hfuel
      simp only [hskip']
      -- the first item does not start with the closing bracket
      split
      · rename_i heq
        cases heq
      · rename_i heq
        exact absurd (List.cons.inj heq).1 hclose
      · rw [htext] at hfuel ⊢
        exact readItems_eq_ok h hs'' hfuel

end

/-! ## Choices -/

def choiceTokens (name : String) (ts : List Token) : List Token := bracketed .object [member (quoted name) ts]

theorem flatten_choiceTokens (name : String) (ts : List Token) :
    (choiceTokens name ts).flatten = writeChoice name ts.flatten := by
  rw [choiceTokens, bracketed, List.flatten_cons, List.flatten_append]
  rfl

section
variable {choices : List (Choice α)} {name : String} (hname : PlainName name) {a : α} {s rest : List Char}
include hname

theorem json_choiceTokens {ts : List Token} (h : IsValue ts) : IsValue (choiceTokens name ts) :=
  @IsValue.object [(quoted name, ts)] (List.forall_mem_singleton.mpr (isString_quoted hname))
    (List.forall_mem_singleton.mpr h)

theorem readChoice_plain (hfind : choices.find? (·.name = name) = some (.plain name a)) (hs : Spaced [quoted name] s) :
    readChoice choices (s ++ rest) = .ok (a, rest) := by
  obtain ⟨s', hnil, hskip⟩ := hs.skip_quoted rest
  cases hnil
  rw [readChoice, hskip]
  dsimp only
  rw [if_neg (by decide), if_pos rfl, string_plain hname]
  simp only [ok_bind, choiceOf, String.ofList_toList, hfind]
  rfl

theorem readChoice_carrying {read : Reader α} (hfind : choices.find? (·.name = name) = some (.carrying name read))
    {ts : List Token} (hread : ∀ {s rest}, Spaced ts s → Delimited rest → read (s ++ rest) = .ok (a, rest))
    (hs : Spaced (choiceTokens name ts) s) : readChoice choices (s ++ rest) = .ok (a, rest) := by
  have hs : Spaced (['{'] :: quoted name :: [':'] :: (ts ++ [['}']])) s := hs
  obtain ⟨s₁, hs₁, hopen⟩ := hs.skip (by decide) rest
  obtain ⟨s₂, hs₂, hquote⟩ := hs₁.skip_quoted rest
  obtain ⟨s₃, hs₃, hcolon⟩ := hs₂.skip (by decide) rest
  obtain ⟨s₄, s₅, rfl, hs₄, hdelimited, hclose⟩ := Spaced.last (.inr rfl) hs₃ rest
  rw [readChoice, hopen]
  dsimp only
  rw [if_pos rfl, openName, List.nil_append, hquote]
  simp only [if_true, ok_bind, string_plain hname, choiceOf, String.ofList_toList, hfind, colon, hcolon, List.nil_append,
    List.append_assoc, hread hs₄ hdelimited, hclose]

end

end Form

end Ragged.Json

import Ragged.Proofs.Json.Numbers

/-!
# The grammar of JSON values

`IsValue` says which rows of tokens are a value. A value that nobody asked for is passed over up to its end, however
deep it is and however it is spaced.
-/

namespace Ragged.Json

/-! ## Strings -/

def Plain (c : Char) : Prop := c ≠ '"' ∧ c ≠ '\\' ∧ ¬ c < ' '

instance : DecidablePred Plain := fun c => inferInstanceAs (Decidable (c ≠ '"' ∧ c ≠ '\\' ∧ ¬ c < ' '))

def PlainName (name : String) : Prop := ∀ c ∈ name.toList, Plain c

instance : DecidablePred PlainName := fun name => @List.decidableBAll _ Plain _ name.toList

def IsHex (c : Char) : Prop := '0' ≤ c ∧ c ≤ '9' ∨ 'a' ≤ c ∧ c ≤ 'f' ∨ 'A' ≤ c ∧ c ≤ 'F'

inductive IsBody : List Char → Prop
  | nil : IsBody []
  | plain {c : Char} {s : List Char} (hc : Plain c) (rest : IsBody s) : IsBody (c :: s)
  | escape {c : Char} {s : List Char} (hc : c ∈ ['"', '\\', '/', 'b', 'f', 'n', 'r', 't']) (rest : IsBody s) :
      IsBody ('\\' :: c :: s)
  | code {a b c d : Char} {s : List Char} (h : ∀ x ∈ [a, b, c, d], IsHex x) (rest : IsBody s) :
      IsBody ('\\' :: 'u' :: a :: b :: c :: d :: s)

inductive IsString : Token → Prop
  | mk {s : List Char} (h : IsBody s) : IsString ('"' :: (s ++ ['"']))

theorem hexDigit?_of_isHex {c : Char} (h : IsHex c) : ∃ n, hexDigit? c = some n := by
  unfold hexDigit?
  split
  · exact ⟨_, rfl⟩
  · split
    · exact ⟨_, rfl⟩
    · split
      · exact ⟨_, rfl⟩
      · rcases h with h | h | h <;> contradiction

theorem code?_of_isHex {a b c d : Char} (h : ∀ x ∈ [a, b, c, d], IsHex x) : ∃ n, code? a b c d = some n := by
  simp only [List.forall_mem_cons] at h
  obtain ⟨ha, hb, hc, hd, -⟩ := h
  obtain ⟨m, ha⟩ := hexDigit?_of_isHex ha
  obtain ⟨n, hb⟩ := hexDigit?_of_isHex hb
  obtain ⟨p, hc⟩ := hexDigit?_of_isHex hc
  obtain ⟨q, hd⟩ := hexDigit?_of_isHex hd
  exact ⟨_, by simp only [code?, ha, hb, hc, hd]; rfl⟩

theorem pieces_quote (s : List Char) : pieces ('"' :: s) = ([], .ok s) := by
  rw [pieces.eq_def]
  rfl

theorem pieces_plain {c : Char} (h : Plain c) (s : List Char) :
    pieces (c :: s) = (.char c :: (pieces s).1, (pieces s).2) := by
  rw [pieces.eq_def]
  dsimp only
  rw [if_neg h.1, if_neg h.2.1, if_neg h.2.2]

theorem pieces_escape {c x : Char} (hc : c ≠ 'u') (h : escaped? c = some x) (s : List Char) :
    pieces ('\\' :: c :: s) = (.char x :: (pieces s).1, (pieces s).2) := by
  rw [pieces.eq_def]
  dsimp only
  rw [if_neg (by decide), if_pos rfl, if_neg hc, h]

theorem pieces_code {a b c d : Char} {n : Nat} (h : code? a b c d = some n) (s : List Char) :
    pieces ('\\' :: 'u' :: a :: b :: c :: d :: s) = (.code n :: (pieces s).1, (pieces s).2) := by
  rw [pieces.eq_def]
  dsimp only
  rw [if_neg (by decide), if_pos rfl, if_pos rfl, h]

theorem escaped?_of_mem {c : Char} (h : c ∈ ['"', '\\', '/', 'b', 'f', 'n', 'r', 't']) :
    c ≠ 'u' ∧ ∃ x, escaped? c = some x := by
  simp only [List.mem_cons, List.not_mem_nil, or_false] at h
  rcases h with rfl | rfl | rfl | rfl | rfl | rfl | rfl | rfl <;> exact ⟨by decide, _, rfl⟩

theorem skipString_eq_ok {s : List Char} (h : IsBody s) (rest : List Char) :
    skipString (s ++ '"' :: rest) = .ok rest := by
  unfold skipString
  induction h with
  | nil => rw [List.nil_append, pieces_quote]
  | plain hc _ ih => rw [List.cons_append, pieces_plain hc, ih]
  | escape hc _ ih =>
    obtain ⟨hu, x, hx⟩ := escaped?_of_mem hc
    rw [List.cons_append, List.cons_append, pieces_escape hu hx, ih]
  | code h _ ih =>
    obtain ⟨n, hn⟩ := code?_of_isHex h
    simp only [List.cons_append, pieces_code hn, ih]

theorem string_plain {s : List Char} (h : ∀ c ∈ s, Plain c) (rest : List Char) :
    string (s ++ '"' :: rest) = .ok (s, rest) := by
  unfold string
  induction s with
  | nil =>
    rw [List.nil_append, pieces_quote]
    rfl
  | cons c s ih =>
    rw [List.forall_mem_cons] at h
    have ih := ih h.2
    rw [List.cons_append, pieces_plain h.1]
    dsimp only at ih ⊢
    rw [joined, ih]
    rfl

theorem isBody_of_plain {s : List Char} (h : ∀ c ∈ s, Plain c) : IsBody s := by
  induction s with
  | nil => exact .nil
  | cons c s ih =>
    rw [List.forall_mem_cons] at h
    exact .plain h.1 (ih h.2)

/-! ## Values -/

inductive IsScalar : Token → Prop
  | literal {t : Token} (h : t ∈ ["null".toList, "true".toList, "false".toList]) : IsScalar t
  | number {t : Token} (h : IsNumber t) : IsScalar t
  | string {t : Token} (h : IsString t) : IsScalar t

/-- Rows of tokens with a comma between each two. -/
def separated : List (List Token) → List Token
  | [] => []
  | [ts] => ts
  | ts :: tss => ts ++ [','] :: separated tss

theorem separated_cons (ts ts' : List Token) (tss : List (List Token)) :
    separated (ts :: ts' :: tss) = ts ++ [','] :: separated (ts' :: tss) := rfl

theorem separated_head (t : Token) (ts : List Token) (tss : List (List Token)) :
    ∃ us, separated ((t :: ts) :: tss) = t :: us := by
  cases tss <;> exact ⟨_, rfl⟩

theorem length_le_separated (ts : List Token) (tss : List (List Token)) : tss.length ≤ (separated (ts :: tss)).length := by
  induction tss generalizing ts with
  | nil => exact Nat.zero_le _
  | cons ts' tss ih =>
    have := ih ts'
    simp only [separated_cons, List.length_append, List.length_cons]
    omega

theorem forall_mem_separated {p : Token → Prop} (hcomma : p [',']) {tss : List (List Token)}
    (h : ∀ ts ∈ tss, ∀ t ∈ ts, p t) : ∀ t ∈ separated tss, p t := by
  induction tss with
  | nil => exact List.forall_mem_nil p
  | cons ts tss ih =>
    rw [List.forall_mem_cons] at h
    cases tss with
    | nil => exact h.1
    | cons ts' tss =>
      rw [separated_cons]
      exact List.forall_mem_append.mpr ⟨h.1, List.forall_mem_cons.mpr ⟨hcomma, ih h.2⟩⟩

section
variable {ts ts' : List Token} {tss : List (List Token)} {s : List Char}

theorem Spaced.last {c : Char} (hc : c = ']' ∨ c = '}') (h : Spaced (separated [ts] ++ [[c]]) s) (rest : List Char) :
    ∃ s₁ s₂, s = s₁ ++ s₂ ∧ Spaced ts s₁ ∧ Delimited (s₂ ++ rest) ∧ skipSpace (s₂ ++ rest) = c :: rest := by
  have hspace : isSpace c = false := by
    rcases hc with rfl | rfl <;> rfl
  obtain ⟨s₁, s₂, rfl, hs₁, hs₂⟩ := h.split
  exact ⟨s₁, s₂, rfl, hs₁, hs₂.delimited (.inr hc) rest, hs₂.skip_last hspace rest⟩

theorem Spaced.next {close : List Token} (h : Spaced (separated (ts :: ts' :: tss) ++ close) s) (rest : List Char) :
    ∃ s₁ s₂ s', s = s₁ ++ s₂ ∧ Spaced ts s₁ ∧ Delimited (s₂ ++ rest) ∧ skipSpace (s₂ ++ rest) = ',' :: (s' ++ rest) ∧
      Spaced (separated (ts' :: tss) ++ close) s' := by
  rw [separated_cons, List.append_assoc] at h
  obtain ⟨s₁, s₂, rfl, hs₁, hs₂⟩ := h.split
  obtain ⟨s', hs', hskip⟩ := hs₂.skip (by decide) rest
  exact ⟨s₁, s₂, s', rfl, hs₁, hs₂.delimited (.inl rfl) rest, hskip, hs'⟩

end

def bracketed (bracket : Bracket) (tss : List (List Token)) : List Token :=
  [match bracket with | .list => '[' | .object => '{'] :: (separated tss ++ [[bracket.close]])

def member (name : Token) (ts : List Token) : List Token := name :: [':'] :: ts

inductive IsValue : List Token → Prop
  | scalar {t : Token} (h : IsScalar t) : IsValue [t]
  | list {items : List (List Token)} (h : ∀ ts ∈ items, IsValue ts) : IsValue (bracketed .list items)
  | object {members : List (Token × List Token)} (hn : ∀ m ∈ members, IsString m.1) (hv : ∀ m ∈ members, IsValue m.2) :
      IsValue (bracketed .object (members.map fun m => member m.1 m.2))

/-! ## First characters -/

/-- The characters that a scalar can start with. -/
def Starts (c : Char) : Prop := c = 'n' ∨ c = 't' ∨ c = 'f' ∨ c = '"' ∨ c = '-' ∨ c.isDigit = true

theorem Starts.apart {c : Char} (h : Starts c) :
    isSpace c = false ∧ c ≠ '[' ∧ c ≠ '{' ∧ c ≠ ']' ∧ c ≠ '}' := by
  rcases h with rfl | rfl | rfl | rfl | rfl | hdigit
  any_goals decide
  refine ⟨isSpace_of_isDigit hdigit, ?_, ?_, ?_, ?_⟩ <;> rintro rfl <;> cases hdigit

theorem IsScalar.starts {t : Token} (h : IsScalar t) : ∃ c t', t = c :: t' ∧ Starts c := by
  cases h with
  | literal h =>
    simp only [List.mem_cons, List.not_mem_nil, or_false] at h
    rcases h with rfl | rfl | rfl
    · exact ⟨'n', _, rfl, .inl rfl⟩
    · exact ⟨'t', _, rfl, .inr (.inl rfl)⟩
    · exact ⟨'f', _, rfl, .inr (.inr (.inl rfl))⟩
  | number h =>
    obtain ⟨hsign, hi, -, -⟩ := h
    rcases hsign with rfl | rfl
    · obtain ⟨d, ds, rfl, hd⟩ := hi.head
      exact ⟨d, _, rfl, .inr (.inr (.inr (.inr (.inr hd))))⟩
    · exact ⟨'-', _, rfl, .inr (.inr (.inr (.inr (.inl rfl))))⟩
  | string h =>
    obtain ⟨-⟩ := h
    exact ⟨'"', _, rfl, .inr (.inr (.inr (.inl rfl)))⟩

/-- The first token of what stands in a bracket neither starts with space nor closes the bracket. -/
def Opens (ts : List Token) : Prop := ∃ c t ts', ts = (c :: t) :: ts' ∧ isSpace c = false ∧ c ≠ ']' ∧ c ≠ '}'

theorem IsValue.opens {ts : List Token} (h : IsValue ts) : Opens ts := by
  cases h with
  | scalar h =>
    obtain ⟨c, t, rfl, hc⟩ := h.starts
    exact ⟨c, t, [], rfl, hc.apart.1, hc.apart.2.2.2⟩
  | list | object => exact ⟨_, [], _, rfl, by decide, by decide, by decide⟩

theorem IsString.opens {t : Token} (h : IsString t) (ts : List Token) : Opens (t :: ts) := by
  obtain ⟨-⟩ := h
  exact ⟨'"', _, ts, rfl, by decide, by decide, by decide⟩

theorem forall_mem_bracketed {bracket : Bracket} {tss : List (List Token)} (h : ∀ ts ∈ tss, ∀ t ∈ ts, t ≠ []) :
    ∀ t ∈ bracketed bracket tss, t ≠ [] := by
  have hrows := @forall_mem_separated (· ≠ []) (List.cons_ne_nil _ _) tss h
  refine List.forall_mem_cons.mpr ⟨List.cons_ne_nil _ _, List.forall_mem_append.mpr ⟨hrows, ?_⟩⟩
  exact List.forall_mem_singleton.mpr (List.cons_ne_nil _ _)

theorem IsValue.ne_nil {ts : List Token} (h : IsValue ts) : ∀ t ∈ ts, t ≠ [] := by
  induction h with
  | scalar h =>
    obtain ⟨c, t, rfl, -⟩ := h.starts
    exact List.forall_mem_singleton.mpr (List.cons_ne_nil c t)
  | list _ ih => exact forall_mem_bracketed ih
  | @object members hn _ ih =>
    refine forall_mem_bracketed (List.forall_mem_map.mpr fun m hm => ?_)
    obtain ⟨c, t, ts, hname, -⟩ := (hn m hm).opens []
    obtain ⟨hname, -⟩ := List.cons.inj hname
    refine List.forall_mem_cons.mpr ⟨?_, List.forall_mem_cons.mpr ⟨List.cons_ne_nil _ _, ih m hm⟩⟩
    rw [hname]
    exact List.cons_ne_nil c t

/-! ## Passing over values -/

theorem literal_append (t s : List Char) : literal t (t ++ s) = .ok s := by
  induction t with
  | nil => rfl
  | cons c t ih => rw [List.cons_append, literal, if_pos rfl, ih]

theorem skipScalar_eq_ok {t : Token} (h : IsScalar t) {s : List Char} (hs : Delimited s) :
    skipScalar .skim (t ++ s) = .ok s := by
  cases h with
  | literal h =>
    have hliteral := literal_append t s
    simp only [List.mem_cons, List.not_mem_nil, or_false] at h
    rcases h with rfl | rfl | rfl <;> exact hliteral
  | number h =>
    have hnumber := skipNumber_eq_ok hs h
    obtain ⟨c, t, rfl, hc⟩ : ∃ c t', t = c :: t' ∧ (c = '-' ∨ c.isDigit = true) := by
      obtain ⟨hsign, hi, -, -⟩ := h
      rcases hsign with rfl | rfl
      · obtain ⟨d, ds, rfl, hd⟩ := hi.head
        exact ⟨d, _, rfl, .inr hd⟩
      · exact ⟨'-', _, rfl, .inl rfl⟩
    have hne : c ≠ 'n' ∧ c ≠ 't' ∧ c ≠ 'f' ∧ c ≠ '"' := by
      refine ⟨?_, ?_, ?_, ?_⟩ <;> rintro rfl <;> simp at hc
    rw [List.cons_append] at hnumber ⊢
    rw [skipScalar, if_neg hne.1, if_neg hne.2.1, if_neg hne.2.2.1, if_neg hne.2.2.2, if_pos hc]
    exact hnumber
  | string h =>
    obtain ⟨hbody⟩ := h
    have hstring := skipString_eq_ok hbody s
    rw [List.cons_append, List.append_assoc]
    exact hstring

/-- An entry of a bracket is passed over up to its end. -/
def Passes (bracket : Bracket) (ts : List Token) : Prop :=
  ∀ {s rest : List Char} {fuel : Nat}, Spaced ts s → Delimited rest → 2 * ts.length ≤ fuel →
    (bracket.skipName .skim (s ++ rest) >>= skipValueWith .skim fuel) = .ok rest

theorem close_cases (bracket : Bracket) :
    isSpace bracket.close = false ∧ bracket.close ≠ ',' ∧ (bracket.close = ']' ∨ bracket.close = '}') := by
  cases bracket <;> decide

section
variable {bracket : Bracket} {s rest : List Char} {fuel : Nat}

theorem skipItems_eq_ok {ts : List Token} {tss : List (List Token)} (h : ∀ ts' ∈ ts :: tss, Passes bracket ts')
    (hs : Spaced (separated (ts :: tss) ++ [[bracket.close]]) s) (hfuel : 2 * (separated (ts :: tss)).length < fuel) :
    skipItems .skim bracket fuel (s ++ rest) = .ok rest := by
  obtain ⟨-, hcomma, hclose⟩ := close_cases bracket
  obtain ⟨fuel, rfl⟩ : ∃ n, fuel = n + 1 := ⟨fuel - 1, by omega⟩
  induction tss generalizing ts s fuel with
  | nil =>
    rw [separated] at hfuel
    obtain ⟨s₁, s₂, rfl, hs₁, hdelimited, hskip⟩ := hs.last hclose rest
    have hpass := h ts List.mem_cons_self hs₁ hdelimited (show 2 * ts.length ≤ fuel by omega)
    rw [skipItems, ← bind_assoc, List.append_assoc, hpass, ok_bind, hskip]
    dsimp only
    rw [if_neg hcomma, if_pos rfl]
  | cons ts' tss ih =>
    rw [separated_cons, List.length_append, List.length_cons] at hfuel
    obtain ⟨s₁, s₂, s', rfl, hs₁, hdelimited, hskip, hs'⟩ := hs.next rest
    have hpass := h ts List.mem_cons_self hs₁ hdelimited (show 2 * ts.length ≤ fuel by omega)
    obtain ⟨fuel, rfl⟩ : ∃ n, fuel = n + 1 := ⟨fuel - 1, by omega⟩
    rw [skipItems, ← bind_assoc, List.append_assoc, hpass, ok_bind, hskip]
    dsimp only
    rw [if_pos rfl]
    exact ih (fun us hus => h us (List.mem_cons_of_mem _ hus)) hs' fuel (by omega)

theorem skipBracket_eq_ok {tss : List (List Token)} (h : ∀ ts ∈ tss, Passes bracket ts) (ho : ∀ ts ∈ tss, Opens ts)
    (hs : Spaced (separated tss ++ [[bracket.close]]) s) (hfuel : 2 * (separated tss).length + 1 < fuel) :
    skipBracket .skim bracket fuel (s ++ rest) = .ok rest := by
  obtain ⟨fuel, rfl⟩ : ∃ n, fuel = n + 1 := ⟨fuel - 1, by omega⟩
  cases tss with
  | nil =>
    rw [skipBracket, Spaced.skip_last hs (close_cases bracket).1 rest]
    dsimp only
    rw [if_pos rfl, List.nil_append]
  | cons ts tss =>
    have hitems : skipItems .skim bracket fuel (s ++ rest) = .ok rest :=
      skipItems_eq_ok h hs (show 2 * (separated (ts :: tss)).length < fuel by omega)
    obtain ⟨c, t, ts', rfl, hspace, hlist, hobject⟩ := ho ts List.mem_cons_self
    have hne : c ≠ bracket.close := by
      cases bracket
      · exact hlist
      · exact hobject
    obtain ⟨us, hus⟩ := separated_head (c :: t) ts' tss
    rw [hus] at hs
    obtain ⟨s', -, hskip⟩ := hs.skip hspace rest
    rw [skipBracket, hskip]
    dsimp only
    rw [if_neg hne]
    exact hitems

end

theorem IsString.skipName {name : Token} (h : IsString name) {ts : List Token} {s : List Char}
    (hs : Spaced (name :: [':'] :: ts) s) (rest : List Char) :
    ∃ s', Spaced ts s' ∧ Bracket.object.skipName .skim (s ++ rest) = .ok (s' ++ rest) := by
  obtain ⟨hbody⟩ := h
  obtain ⟨s₁, hs₁, hquote⟩ := hs.skip (by decide) rest
  obtain ⟨s₂, hs₂, hcolon⟩ := hs₁.skip (by decide) rest
  refine ⟨s₂, hs₂, ?_⟩
  rw [Bracket.skipName, openName, hquote]
  simp only [List.append_assoc, List.singleton_append, List.nil_append, if_true, ok_bind, Care.string, colon,
    skipString_eq_ok hbody, hcolon]

theorem Passes.member {name : Token} (hname : IsString name) {ts : List Token} (h : Passes .list ts) :
    Passes .object (member name ts) := by
  intro s rest fuel hs hrest hfuel
  obtain ⟨s', hs', hskip⟩ := hname.skipName hs rest
  rw [hskip]
  exact h hs' hrest (by simp only [Json.member, List.length_cons] at hfuel; omega)

theorem Passes.bracketed {bracket : Bracket} {tss : List (List Token)} (h : ∀ ts ∈ tss, Passes bracket ts)
    (ho : ∀ ts ∈ tss, Opens ts) : Passes .list (bracketed bracket tss) := by
  intro s rest fuel hs hrest hfuel
  obtain ⟨fuel, rfl⟩ : ∃ n, fuel = n + 1 := ⟨fuel - 1, by simp only [Json.bracketed, List.length_cons] at hfuel; omega⟩
  simp only [Json.bracketed, List.length_cons, List.length_append, List.length_nil] at hfuel
  rw [Bracket.skipName, ok_bind, skipValueWith]
  cases bracket with
  | list =>
    obtain ⟨s', hs', hskip⟩ := hs.skip (by decide) rest
    rw [hskip]
    exact skipBracket_eq_ok h ho hs' (by omega)
  | object =>
    obtain ⟨s', hs', hskip⟩ := hs.skip (by decide) rest
    rw [hskip]
    exact skipBracket_eq_ok h ho hs' (by omega)

theorem IsValue.passes {ts : List Token} (h : IsValue ts) : Passes .list ts := by
  induction h with
  | @scalar t h =>
    intro s rest fuel hs hrest hfuel
    obtain ⟨fuel, rfl⟩ : ∃ n, fuel = n + 1 := ⟨fuel - 1, by simp at hfuel; omega⟩
    have hscalar := skipScalar_eq_ok h hrest
    obtain ⟨c, t, rfl, hc⟩ := h.starts
    rw [Bracket.skipName, ok_bind, skipValueWith, hs.skip_last hc.apart.1 rest]
    dsimp only
    rw [if_neg hc.apart.2.1, if_neg hc.apart.2.2.1]
    exact hscalar
  | list hv ih => exact Passes.bracketed ih fun ts hts => (hv ts hts).opens
  | @object members hn hv ih =>
    apply Passes.bracketed
    · intro ts hts
      obtain ⟨m, hm, rfl⟩ := List.mem_map.mp hts
      exact Passes.member (hn m hm) (ih m hm)
    · intro ts hts
      obtain ⟨m, hm, rfl⟩ := List.mem_map.mp hts
      exact (hn m hm).opens _

theorem skipValue_eq_ok {ts : List Token} (h : IsValue ts) {s rest : List Char} (hs : Spaced ts s)
    (hrest : Delimited rest) : skipValue .skim (s ++ rest) = .ok rest := by
  have hlength := hs.length_le
  have hpass := h.passes hs hrest (show 2 * ts.length ≤ 3 * (s ++ rest).length + 3 by
    rw [List.length_append]
    omega)
  exact hpass

end Ragged.Json

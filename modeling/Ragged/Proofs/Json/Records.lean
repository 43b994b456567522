import Mathlib.Data.List.Basic
import Ragged.Proofs.Json.Spelling

/-!
# Spelled records

A record is written as an object of its fields. It is read from every object in which some of its fields stand, each
once at most and with any others among them: the fields that stand there replace those of the record that reading
starts from.
-/

namespace Ragged.Json.Form

variable {α σ : Type}

/-- A field that is spelled by tokens. What it reads of a record is what `copy` takes over. -/
structure SpelledField (σ : Type) extends Field σ where
  tokens : σ → List Token
  copy : σ → σ → σ
  plain : PlainName name
  json : ∀ v, IsValue (tokens v)
  write_eq : ∀ v, write v = (tokens v).flatten
  read_eq : ∀ {v r s rest}, Spaced (tokens v) s → Delimited rest → read r (s ++ rest) = .ok (copy v r, rest)

def spelledField (name : String) (hname : PlainName name) {form : Form α} {tokens : α → List Token}
    (h : form.Spelled tokens) (get : σ → α) (set : α → σ → σ) : SpelledField σ where
  toField := field name form get set
  tokens v := tokens (get v)
  copy v r := set (get v) r
  plain := hname
  json v := h.json (get v)
  write_eq v := h.write_eq (get v)
  read_eq {v r s rest} hs hrest := by
    simp only [field, h.read_eq hs hrest, ok_bind]
    rfl

def memberTokens (m : String × List Token) : List Token := member (quoted m.1) m.2

def objectTokens (ms : List (String × List Token)) : List Token := bracketed .object (ms.map memberTokens)

section
variable {name : String} {hname : PlainName name} {form : Form α} {tokens : α → List Token}
  {h : form.Spelled tokens} {get : σ → α} {set : α → σ → σ}

@[simp] theorem spelledField_name : (spelledField name hname h get set).name = name := rfl

@[simp] theorem spelledField_copy (v r : σ) : (spelledField name hname h get set).copy v r = set (get v) r := rfl

end

/-- A member that stands in an object with fields `own` is one of them, or has another name. -/
inductive Fits (own : List (String × List Token)) : String × List Token → Prop
  | field {m : String × List Token} (hm : m ∈ own) : Fits own m
  | other {name : String} {ts : List Token} (hplain : PlainName name) (hname : name ∉ own.map Prod.fst)
      (hts : IsValue ts) : Fits own (name, ts)

/-- Some of the fields `own`, each once and in any order, with any others among them. -/
structure Mixed (own ms : List (String × List Token)) : Prop where
  fits : ∀ m ∈ ms, Fits own m
  once : ms.Pairwise fun m₁ m₂ => m₁.1 ∈ own.map Prod.fst → m₁.1 ≠ m₂.1

section
variable (fs : List (SpelledField σ))

def fields : List (Field σ) := fs.map SpelledField.toField

def names : List String := fs.map fun f => f.name

def members (v : σ) : List (String × List Token) := fs.map fun f => (f.name, f.tokens v)

def takeOver (v r : σ) (m : String × List Token) : σ :=
  match fs.find? (·.name = m.1) with
  | some f => f.copy v r
  | none => r

/-- The names of fields that came before, and with a member. -/
def arrivals (seen : List String) (m : String × List Token) : List String := if m.1 ∈ names fs then m.1 :: seen else seen

end

variable {fs : List (SpelledField σ)}

theorem map_fst_members (v : σ) : (members fs v).map Prod.fst = names fs := by
  rw [members, List.map_map]
  rfl

theorem find?_of_mem (hfs : (names fs).Nodup) {f : SpelledField σ} (hf : f ∈ fs) :
    fs.find? (·.name = f.name) = some f := by
  induction fs with
  | nil => cases hf
  | cons g fs ih =>
    rw [names, List.map_cons, List.nodup_cons] at hfs
    by_cases hname : g.name = f.name
    · have hsame : f = g := by
        rcases List.mem_cons.mp hf with hfg | hmem
        · exact hfg
        · exact absurd (hname ▸ List.mem_map_of_mem hmem) hfs.1
      rw [hsame]
      exact List.find?_cons_of_pos (decide_eq_true rfl)
    · have hmem : f ∈ fs := (List.mem_cons.mp hf).resolve_left fun hfg => hname (hfg ▸ rfl)
      rw [List.find?_cons_of_neg (by simpa using hname), ih hfs.2 hmem]

theorem find?_of_not_mem {name : String} (h : name ∉ names fs) : fs.find? (·.name = name) = none := by
  rw [List.find?_eq_none]
  intro f hf
  have hne : f.name ≠ name := fun hname => h (hname ▸ List.mem_map_of_mem hf)
  simpa using hne

theorem find?_fields (name : String) :
    (fields fs).find? (·.name = name) = (fs.find? (·.name = name)).map SpelledField.toField := by
  rw [fields, List.find?_map]
  rfl

theorem opens_memberTokens (m : String × List Token) : Opens (memberTokens m) :=
  ⟨'"', _, _, rfl, by decide, by decide, by decide⟩

theorem mem_arrivals {seen : List String} {m : String × List Token} {name : String} :
    name ∈ arrivals fs seen m ↔ name ∈ seen ∨ name ∈ names fs ∧ name = m.1 := by
  unfold arrivals
  split <;> grind

variable (hfs : (names fs).Nodup) {v : σ}
include hfs

theorem readMembers_step {m : String × List Token} (hm : Fits (members fs v) m) {seen : List String}
    (hnew : m.1 ∈ names fs → m.1 ∉ seen) {s rest : List Char} (hs : Spaced (memberTokens m) s) (hrest : Delimited rest)
    (fuel : Nat) (r : σ) :
    readMembers (fields fs) (fuel + 1) seen r (s ++ rest) =
      match skipSpace rest with
      | [] => .error .truncated
      | c :: s =>
        if c = ',' then readMembers (fields fs) fuel (arrivals fs seen m) (takeOver fs v r m) s
        else if c = '}' then .ok ((takeOver fs v r m, arrivals fs seen m), s)
        else .error .malformed := by
  obtain ⟨s₁, hs₁, hquote⟩ := hs.skip_quoted rest
  obtain ⟨s₂, hs₂, hcolon⟩ := hs₁.skip (by decide) rest
  rw [readMembers, openName, hquote]
  dsimp only
  rw [if_pos rfl, ok_bind]
  cases hm with
  | field hm =>
    obtain ⟨f, hf, rfl⟩ := List.mem_map.mp hm
    have hmem : f.name ∈ names fs := List.mem_map_of_mem hf
    have hread := @f.read_eq v r _ _ hs₂ hrest
    rw [string_plain f.plain, ok_bind]
    dsimp only
    rw [String.ofList_toList, find?_fields, find?_of_mem hfs hf, Option.map_some, takeOver, find?_of_mem hfs hf,
      arrivals, if_pos hmem]
    dsimp only
    rw [if_neg (hnew hmem), colon, hcolon]
    dsimp only
    rw [if_pos rfl, ok_bind, List.nil_append, hread]
    rfl
  | @other name ts hplain hname hts =>
    rw [map_fst_members] at hname
    rw [string_plain hplain, ok_bind]
    dsimp only
    rw [String.ofList_toList, find?_fields, find?_of_not_mem hname, Option.map_none, takeOver, find?_of_not_mem hname,
      arrivals, if_neg hname]
    dsimp only
    rw [colon, hcolon]
    dsimp only
    rw [if_pos rfl, ok_bind, List.nil_append, skipValue_eq_ok hts hs₂ hrest]
    rfl

theorem readMembers_eq_ok {m : String × List Token} {ms : List (String × List Token)}
    (hms : ∀ m' ∈ m :: ms, Fits (members fs v) m') (honce : (m :: ms).Pairwise fun m₁ m₂ => m₁.1 ∈ names fs → m₁.1 ≠ m₂.1)
    {seen : List String} (hnew : ∀ m' ∈ m :: ms, m'.1 ∈ names fs → m'.1 ∉ seen) {s : List Char} {fuel : Nat}
    (hs : Spaced (separated ((m :: ms).map memberTokens) ++ [['}']]) s) (hfuel : ms.length < fuel) (r : σ)
    (rest : List Char) :
    ∃ seen', readMembers (fields fs) fuel seen r (s ++ rest) = .ok (((m :: ms).foldl (takeOver fs v) r, seen'), rest) ∧
      ∀ name, name ∈ seen' ↔ name ∈ seen ∨ name ∈ names fs ∧ name ∈ (m :: ms).map Prod.fst := by
  obtain ⟨fuel, rfl⟩ : ∃ n, fuel = n + 1 := ⟨fuel - 1, by omega⟩
  have hm := hms m List.mem_cons_self
  have hnewm := hnew m List.mem_cons_self
  induction ms generalizing m s fuel seen r with
  | nil =>
    obtain ⟨s₁, s₂, rfl, hs₁, hdelimited, hskip⟩ := hs.last (.inr rfl) rest
    refine ⟨arrivals fs seen m, ?_, fun name => ?_⟩
    · rw [List.append_assoc, readMembers_step hfs hm hnewm hs₁ hdelimited, hskip]
      rfl
    · rw [mem_arrivals, List.map_singleton, List.mem_singleton]
  | cons m' ms ih =>
    obtain ⟨fuel, rfl⟩ : ∃ n, fuel = n + 1 := ⟨fuel - 1, by rw [List.length_cons] at hfuel; omega⟩
    rw [List.pairwise_cons] at honce
    -- the name that was read now does not come again
    have hnew' : ∀ m₂ ∈ m' :: ms, m₂.1 ∈ names fs → m₂.1 ∉ arrivals fs seen m := by
      intro m₂ hm₂ hname hmem
      rcases mem_arrivals.mp hmem with hseen | ⟨hname', hsame⟩
      · exact hnew m₂ (List.mem_cons_of_mem m hm₂) hname hseen
      · exact honce.1 m₂ hm₂ (hsame ▸ hname') hsame.symm
    obtain ⟨s₁, s₂, s', rfl, hs₁, hdelimited, hskip, hs'⟩ := hs.next rest
    obtain ⟨seen', hread, hseen'⟩ := ih (fun m₂ hm₂ => hms m₂ (List.mem_cons_of_mem m hm₂)) honce.2 hnew' hs'
      (takeOver fs v r m) fuel (Nat.lt_of_succ_lt_succ hfuel) (hms m' (.tail m (.head ms))) (hnew' m' (.head ms))
    refine ⟨seen', ?_, fun name => ?_⟩
    · rw [List.append_assoc, readMembers_step hfs hm hnewm hs₁ hdelimited, hskip]
      exact hread
    · simp only [hseen', mem_arrivals, or_assoc, ← and_or_left, List.map_cons, List.mem_cons]

omit hfs in
theorem partly_or_all {partly : Bool} {ms : List (String × List Token)}
    (hall : partly = true ∨ ∀ name ∈ names fs, name ∈ ms.map Prod.fst) {seen : List String}
    (hseen : ∀ name ∈ names fs, name ∈ ms.map Prod.fst → name ∈ seen) :
    (partly || (fields fs).all (fun f => f.name ∈ seen)) = true := by
  rcases hall with rfl | hall
  · exact Bool.true_or _
  · rw [Bool.or_eq_true, List.all_eq_true]
    right
    intro f hf
    obtain ⟨g, hg, rfl⟩ := List.mem_map.mp hf
    have hname : g.name ∈ names fs := List.mem_map_of_mem hg
    exact decide_eq_true (hseen g.name hname (hall g.name hname))

theorem read_record {ms : List (String × List Token)} (h : Mixed (members fs v) ms) {partly : Bool}
    (hall : partly = true ∨ ∀ name ∈ names fs, name ∈ ms.map Prod.fst) {s rest : List Char}
    (hs : Spaced (objectTokens ms) s) (initial : σ) :
    (record (fields fs) partly initial).read (s ++ rest) = .ok (ms.foldl (takeOver fs v) initial, rest) := by
  have honce := h.once
  rw [map_fst_members] at honce
  have hs : Spaced (['{'] :: (separated (ms.map memberTokens) ++ [['}']])) s := hs
  obtain ⟨s', hs', hskip⟩ := hs.skip (by decide) rest
  have hlist : '{' ≠ '[' := by decide
  simp only [record, hskip, List.nil_append, hlist, if_false, if_true]
  cases ms with
  | nil =>
    have hall' := @partly_or_all _ _ _ _ hall [] fun _ _ hname => hname
    simp only [Spaced.skip_last hs' (by decide) rest, ok_bind, hall']
    rfl
  | cons m ms =>
    obtain ⟨c, t, s'', hskip', -, hclose, htext, hs'', hfuel⟩ := hs'.skip_separated (opens_memberTokens m) rest
    rw [List.length_map] at hfuel
    obtain ⟨seen', hread, hseen'⟩ := readMembers_eq_ok hfs h.fits honce (fun _ _ _ => List.not_mem_nil) hs'' hfuel initial
      rest
    simp only [hskip']
    -- a member starts with a quote, so the object is not closed at once
    split
    · rename_i heq
      cases heq
    · rename_i heq
      exact absurd (List.cons.inj heq).1 hclose
    · rw [htext] at hread ⊢
      simp only [hread, ok_bind, partly_or_all hall fun name hname hmem => (hseen' name).mpr (.inr ⟨hname, hmem⟩)]
      rfl

/-! ## Whole records -/

theorem mixed_members (v : σ) : Mixed (members fs v) (members fs v) where
  fits _ hm := .field hm
  once := by
    have hnodup := hfs
    rw [← map_fst_members v, List.Nodup, List.pairwise_map] at hnodup
    refine hnodup.imp ?_
    intro m₁ m₂ hne _
    exact hne

omit hfs in
theorem json_objectTokens {ms : List (String × List Token)} (hplain : ∀ m ∈ ms, PlainName m.1)
    (hms : ∀ m ∈ ms, IsValue m.2) : IsValue (objectTokens ms) := by
  have hobject := @IsValue.object (ms.map fun m => (quoted m.1, m.2))
    (List.forall_mem_map.mpr fun m hm => isString_quoted (hplain m hm)) (List.forall_mem_map.mpr hms)
  rwa [List.map_map] at hobject

omit hfs in
theorem flatten_objectTokens (ms : List (String × List Token)) :
    (objectTokens ms).flatten = '{' :: commas (ms.map fun m => quoted m.1 ++ ':' :: m.2.flatten) ++ ['}'] := by
  rw [objectTokens, bracketed, List.flatten_cons, List.flatten_append, flatten_separated, List.map_map]
  rfl

theorem foldl_members (v r : σ) : (members fs v).foldl (takeOver fs v) r = fs.foldl (fun r f => f.copy v r) r := by
  rw [members, List.foldl_map]
  refine List.foldl_ext _ _ _ fun r f hf => ?_
  rw [takeOver, find?_of_mem hfs hf]

theorem record_spelled {partly : Bool} {initial : σ} (hcopy : ∀ v, fs.foldl (fun r f => f.copy v r) initial = v) :
    (record (fields fs) partly initial).Spelled fun v => objectTokens (members fs v) where
  json v :=
    json_objectTokens (List.forall_mem_map.mpr fun f _ => f.plain) (List.forall_mem_map.mpr fun f _ => f.json v)
  write_eq v := by
    rw [flatten_objectTokens, members, List.map_map]
    simp only [record, fields, List.map_map]
    congr 3
    apply List.map_congr_left
    intro f hf
    simp only [Function.comp_apply, f.write_eq]
  read_eq {v s rest} hs hrest := by
    have hall : partly = true ∨ ∀ name ∈ names fs, name ∈ (members fs v).map Prod.fst := by
      rw [map_fst_members]
      exact .inr fun _ h => h
    rw [read_record hfs (mixed_members hfs v) hall hs, foldl_members hfs, hcopy]

theorem parse_mixed {ms : List (String × List Token)} (h : Mixed (members fs v) ms) {text : String}
    (ht : IsText (objectTokens ms) text) (initial : σ) (words : JsonWords) :
    (record (fields fs) true initial).parse text words = .ok (ms.foldl (takeOver fs v) initial) :=
  parse_eq_ok ht (fun hs _ => read_record hfs h (.inl rfl) hs initial) words

omit hfs in
/-- What a field holds after members were taken over. `g` looks at what the field of that name holds, and no other
field changes it. -/
theorem get_foldl_takeOver {β : Type} (g : σ → β) {name : String} (hname : name ∈ names fs)
    (hcopy : ∀ f ∈ fs, ∀ r, g (f.copy v r) = if f.name = name then g v else g r) (ms : List (String × List Token))
    (r : σ) : g (ms.foldl (takeOver fs v) r) = if name ∈ ms.map Prod.fst then g v else g r := by
  induction ms generalizing r with
  | nil => rfl
  | cons m ms ih =>
    have hstep : g (takeOver fs v r m) = if m.1 = name then g v else g r := by
      rw [takeOver]
      cases hfind : fs.find? (·.name = m.1) with
      | none =>
        have hne : m.1 ≠ name := by
          rintro rfl
          obtain ⟨f, hf, hfname⟩ := List.mem_map.mp hname
          exact List.find?_eq_none.mp hfind f hf (decide_eq_true hfname)
        rw [if_neg hne]
      | some f =>
        have hfname : f.name = m.1 := by simpa using List.find?_some hfind
        rw [← hfname]
        exact hcopy f (List.mem_of_find?_eq_some hfind) r
    rw [List.foldl_cons, ih, hstep, List.map_cons]
    by_cases hmem : name ∈ ms.map Prod.fst
    · rw [if_pos hmem, if_pos (List.mem_cons_of_mem _ hmem)]
    · simp only [List.mem_cons, hmem, or_false, if_false, eq_comm]

end Ragged.Json.Form

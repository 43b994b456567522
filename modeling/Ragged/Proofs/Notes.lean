import Ragged.Raise

/-!
# Notes

Notes on an error leave its cause as it is and stand before its text, the last one first. Under the strict setting no
error with a message is made: the first message that is written stops the program, be it one of the kind of the error or
one of the notes.
-/

namespace Ragged.Error

def noteAll (strict : Bool) (notes : List String) (made : Error) : Raised Error :=
  notes.foldlM (fun made note => do return made.withContext (← Raised.message strict note)) made

/-! ## The cause -/

theorem root_ne_context (e : Error) (note : String) (cause : Error) : e.root ≠ context note cause := by
  induction e with
  | context _ _ ih => exact ih
  | _ => nofun

theorem root_eq_self_iff (e : Error) : e.root = e ↔ ∀ note cause, e ≠ context note cause := by
  constructor
  · intro h note cause he
    exact root_ne_context e note cause (h.trans he)
  · intro h
    cases e with
    | context note cause => exact absurd rfl (h note cause)
    | _ => rfl

theorem isCorruption_iff (e : Error) : e.isCorruption = true ↔ ∃ reason, e.root = corruption reason := by
  rw [isCorruption]
  cases e.root <;> simp

section
variable (e : Error) (notes : List String)

theorem root_noted : (notes.foldl withContext e).root = e.root := by
  induction notes generalizing e with
  | nil => rfl
  | cons note notes ih => exact ih (e.withContext note)

theorem messages_noted : (notes.foldl withContext e).messages = e.messages ++ notes := by
  induction notes generalizing e with
  | nil => exact (List.append_nil _).symm
  | cons note notes ih =>
    rw [List.foldl_cons, ih, withContext, messages, List.append_assoc, List.singleton_append]

theorem message_noted :
    (notes.foldl withContext e).message = String.join (notes.reverse.map (· ++ ": ")) ++ e.message := by
  induction notes generalizing e with
  | nil => simp
  | cons note notes ih =>
    have hnote : (e.withContext note).message = note ++ ": " ++ e.message := rfl
    rw [List.foldl_cons, ih, hnote, List.reverse_cons, List.map_append, String.join_append, List.map_singleton,
      String.join_cons, String.join_nil, String.append_empty, ← String.append_assoc]

/-! ## The strict setting -/

theorem messages_eq_nil_iff : e.messages = [] ↔
    (∃ index start stop, e = outOfBounds index start stop) ∨ (∃ reason, e = io reason) ∨ ∃ refusal, e = json refusal := by
  cases e <;> simp [messages]

theorem raise_lax : e.raise false = .value e := by
  induction e with
  | context note cause ih =>
    rw [raise, ih]
    rfl
  | _ => rfl

/-- The cause is made before the note, so the first message is the cause's if it has one. -/
theorem raise_strict : e.raise true =
    match e.messages with
    | [] => .value e
    | first :: _ => .stopped first := by
  induction e with
  | context note cause ih =>
    rw [raise, ih, messages]
    cases cause.messages with
    | nil => rfl
    | cons first rest => rfl
  | _ => rfl

theorem raise_noteAll (strict : Bool) :
    (do noteAll strict notes (← e.raise strict)) = (notes.foldl withContext e).raise strict := by
  induction notes generalizing e with
  | nil =>
    rw [List.foldl_nil]
    cases e.raise strict with
    | value _ => rfl
    | stopped _ => rfl
  | cons note notes ih =>
    rw [List.foldl_cons, ← ih, withContext, raise]
    cases e.raise strict with
    | stopped _ => rfl
    | value made =>
      cases strict with
      | false => rfl
      | true => rfl

end

/-- Notes keep the cause, and the text of an error is its notes from the last to the first and then its own text. An
error is made and noted step by step, and under the strict setting the first message of the error and its notes stops
the program. -/
theorem notes_keep_the_cause (setting : Option String) (e : Error) (notes : List String) :
    let noted := notes.foldl withContext e
    let made := do noteAll (isStrict setting) notes (← e.raise (isStrict setting))
    noted.root = e.root ∧ (e.root = e ↔ ∀ note cause, e ≠ context note cause) ∧
    (noted.isCorruption = true ↔ ∃ reason, e.root = corruption reason) ∧
    noted.message = String.join (notes.reverse.map (· ++ ": ")) ++ e.message ∧
    made = e.raiseWithin (isStrict setting) notes ∧
    made = (if setting = some "1" then
        match e.messages ++ notes with
        | [] => .value noted
        | first :: _ => .stopped first
      else .value noted) ∧
    ((setting = some "1" ∧ ∃ a, made = .value a) ↔
      setting = some "1" ∧ notes = [] ∧
        ((∃ index start stop, e = outOfBounds index start stop) ∨ (∃ reason, e = io reason) ∨
          ∃ refusal, e = json refusal)) := by
  intro noted made
  have hmade : made = noted.raise (isStrict setting) := raise_noteAll e notes _
  have hraise : made = (if setting = some "1" then
        match e.messages ++ notes with
        | [] => .value noted
        | first :: _ => .stopped first
      else .value noted) := by
    rw [hmade, isStrict]
    by_cases hs : setting = some "1"
    · rw [if_pos hs, beq_iff_eq.mpr hs, raise_strict, messages_noted]
    · rw [if_neg hs, beq_eq_false_iff_ne.mpr hs, raise_lax]
  refine ⟨root_noted e notes, root_eq_self_iff e, ?_, message_noted e notes, hmade, hraise, ?_⟩
  · rw [isCorruption_iff, root_noted]
  · rw [← messages_eq_nil_iff]
    refine and_congr_right fun hs => ?_
    rw [hraise, if_pos hs, and_comm, ← List.append_eq_nil_iff]
    cases e.messages ++ notes with
    | nil => simp
    | cons first rest => simp

/-- A shape that does not fit, noted twice: its own first message stops the program. -/
example : (Error.shapeMismatch "2 counts" "3 counts").raiseWithin true ["reading", "copying"] = .stopped "2 counts" := by
  decide

end Ragged.Error

import Ragged.Proofs.HeapWriter

/-!
# Portions

A writer hands its bytes on in portions. Whatever fails, every append of the sink that is made before the end carries
exactly `threshold` bytes and the one at the end no more. If nothing fails, the sizes of the appends depend on the
number of bytes alone, not on the contents they came in.
-/

namespace Ragged.HeapWriter

variable {σ : Type} {S : Sink σ} {fails : Nat → Bool} {threshold : Nat}

/-! ## Flushing under observation -/

theorem appends_observed (S : Sink σ) (fails : Nat → Bool) (bytes : List UInt8) (s : Observed σ) :
    ((Sink.observed S fails).append bytes s).2.appends = s.appends ++ [bytes.length] := by
  simp only [Sink.observed]
  split
  · rfl
  · rfl

/-- The size of the append that a flush makes, if it makes one. -/
def leftOver (w : HeapWriter σ) : List Nat := if w.buffer = [] then [] else [w.buffer.length]

theorem flush_appends (w : HeapWriter (Observed σ)) :
    (flush (Sink.observed S fails) w).2.sink.appends = w.sink.appends ++ leftOver w := by
  unfold flush leftOver
  by_cases hb : w.buffer = []
  · rw [if_pos hb, if_pos hb, List.append_nil]
  · rw [if_neg hb, if_neg hb, ← appends_observed S fails]
    rcases (Sink.observed S fails).append w.buffer w.sink with ⟨x, sink⟩
    cases x with
    | ok u => rfl
    | fail e => rfl
    | trap => rfl

theorem flush_buffer (S : Sink σ) (w : HeapWriter σ) :
    (flush S w).1 = .ok () ∧ (flush S w).2.buffer = [] ∨
      (flush S w).1 ≠ .ok () ∧ (flush S w).2.buffer = w.buffer := by
  unfold flush
  by_cases hb : w.buffer = []
  · rw [if_pos hb]
    exact .inl ⟨rfl, hb⟩
  · rw [if_neg hb]
    rcases S.append w.buffer w.sink with ⟨x, sink⟩
    cases x with
    | ok u => exact .inl ⟨rfl, rfl⟩
    | fail e => exact .inr ⟨nofun, rfl⟩
    | trap => exact .inr ⟨nofun, rfl⟩

theorem leftOver_full (h0 : 0 < threshold) {w : HeapWriter σ} (h : w.buffer.length = threshold) :
    leftOver w = [threshold] := by
  have hb : w.buffer ≠ [] := by
    intro hb
    rw [hb, List.length_nil] at h
    omega
  rw [leftOver, if_neg hb, h]

/-! ## Whatever fails -/

structure Portioned (threshold : Nat) (w : HeapWriter (Observed σ)) : Prop where
  room : w.buffer.length ≤ threshold
  full : ∀ n ∈ w.sink.appends, n = threshold

theorem flushFull_portioned (h0 : 0 < threshold) {w : HeapWriter (Observed σ)} (h : Portioned threshold w) :
    Portioned threshold (flushFull (Sink.observed S fails) threshold w).2 := by
  unfold flushFull
  by_cases hfull : w.buffer.length = threshold
  · rw [if_pos hfull]
    refine ⟨?_, ?_⟩
    · obtain ⟨-, hb⟩ | ⟨-, hb⟩ := flush_buffer (Sink.observed S fails) w
      · rw [hb]
        exact Nat.zero_le _
      · rw [hb]
        exact h.room
    · rw [flush_appends, leftOver_full h0 hfull]
      intro n hn
      rcases List.mem_append.mp hn with hn | hn
      · exact h.full n hn
      · exact List.mem_singleton.mp hn
  · rw [if_neg hfull]
    exact h

theorem gather_portioned (h0 : 0 < threshold) (rounds : Nat) {rest : List UInt8} {w : HeapWriter (Observed σ)}
    (h : Portioned threshold w) : Portioned threshold (gather (Sink.observed S fails) threshold rounds rest w).2 := by
  induction rounds generalizing rest w with
  | zero =>
    cases rest with
    | nil => exact h
    | cons r rest => exact h
  | succ rounds ih =>
    cases rest with
    | nil => exact h
    | cons r rest =>
      rw [gather_cons rounds r rest h.room]
      have hkept : Portioned threshold
          { w with buffer := w.buffer ++ (r :: rest).take (threshold - w.buffer.length) } := by
        refine ⟨?_, h.full⟩
        have := h.room
        simp only [List.length_append, List.length_take]
        omega
      have hport : Portioned threshold (flushFull (Sink.observed S fails) threshold _).2 :=
        flushFull_portioned h0 hkept
      by_cases hx : (flushFull (Sink.observed S fails) threshold
          { w with buffer := w.buffer ++ (r :: rest).take (threshold - w.buffer.length) }).1 = .ok ()
      · rw [Action.bind_of_ok hx]
        exact ih hport
      · rw [Action.bind_of_ne_ok hx]
        exact hport

theorem append_state (S : Sink σ) (h0 : 0 < threshold) (content : List UInt8) (w : HeapWriter σ) :
    append S threshold content w = (.trap, w) ∨
      (append S threshold content w).2 = (gather S threshold (content.length + 1) content w).2 ∧
        ∀ offset, (append S threshold content w).1 = .ok offset →
          (gather S threshold (content.length + 1) content w).1 = .ok () := by
  by_cases hword : S.size w.sink + w.buffer.length < 2 ^ 64
  · have hsize : (Action.view (size S) w).1 = .ok (S.size w.sink + w.buffer.length) := Word.add_eq_ok hword
    rw [append, Action.bind_of_ok hsize, if_neg (Nat.ne_of_gt h0), Action.bind_apply]
    right
    rcases hg : gather S threshold (content.length + 1) content w with ⟨x, w'⟩
    rw [show (Action.view (size S) w).2 = w from rfl, hg]
    cases x with
    | ok u => exact ⟨rfl, fun _ _ => rfl⟩
    | fail e => exact ⟨rfl, nofun⟩
    | trap => exact ⟨rfl, nofun⟩
  · have hsize : size S w = .trap := if_neg hword
    rw [append, Action.bind_apply, Action.view, hsize]
    exact .inl rfl

theorem append_portioned (h0 : 0 < threshold) (content : List UInt8) {w : HeapWriter (Observed σ)}
    (h : Portioned threshold w) : Portioned threshold (append (Sink.observed S fails) threshold content w).2 := by
  obtain happend | ⟨hstate, -⟩ := append_state (Sink.observed S fails) h0 content w
  · rw [happend]
    exact h
  · rw [hstate]
    exact gather_portioned h0 _ h

/-! ## Runs without a failure -/

/-- As many full portions as `total` bytes give were appended, and the rest of them is gathered. -/
structure Even (threshold total : Nat) (w : HeapWriter (Observed σ)) : Prop where
  room : w.buffer.length < threshold
  portions : ∃ k, w.sink.appends = List.replicate k threshold ∧ k * threshold + w.buffer.length = total

theorem flushFull_even (h0 : 0 < threshold) {total k : Nat} {w : HeapWriter (Observed σ)}
    (hroom : w.buffer.length ≤ threshold) (hk : w.sink.appends = List.replicate k threshold)
    (ht : k * threshold + w.buffer.length = total)
    (hx : (flushFull (Sink.observed S fails) threshold w).1 = .ok ()) :
    Even threshold total (flushFull (Sink.observed S fails) threshold w).2 := by
  unfold flushFull at hx ⊢
  by_cases hfull : w.buffer.length = threshold
  · rw [if_pos hfull] at hx ⊢
    obtain ⟨-, hb⟩ | ⟨hne, -⟩ := flush_buffer (Sink.observed S fails) w
    · refine ⟨by rw [hb]; exact h0, k + 1, ?_, ?_⟩
      · rw [flush_appends, leftOver_full h0 hfull, hk, List.replicate_succ']
      · rw [hb, List.length_nil, Nat.add_zero, Nat.succ_mul, ← ht, hfull]
    · exact absurd hx hne
  · rw [if_neg hfull]
    exact ⟨Nat.lt_of_le_of_ne hroom hfull, k, hk, ht⟩

theorem gather_even (h0 : 0 < threshold) {fuel total : Nat} {rest : List UInt8} {w : HeapWriter (Observed σ)}
    (h : Even threshold total w) (hf : rest.length < fuel)
    (hx : (gather (Sink.observed S fails) threshold fuel rest w).1 = .ok ()) :
    Even threshold (total + rest.length) (gather (Sink.observed S fails) threshold fuel rest w).2 := by
  refine gather_rule
    (fun left v => ∃ n, Even threshold n v ∧ n + left.length = total + rest.length)
    (fun x v => x = .ok () → Even threshold (total + rest.length) v) ?room ?done ?pass
    ⟨total, h, rfl⟩ (.inl hf) hx
  case room =>
    rintro _ v ⟨n, hv, -⟩
    exact Nat.le_of_lt hv.room
  case done =>
    rintro v ⟨n, hv, hn⟩ -
    rw [List.length_nil, Nat.add_zero] at hn
    exact hn ▸ hv
  case pass =>
    rintro left v - ⟨n, ⟨hroom, k, hk, hn⟩, htotal⟩
    obtain ⟨part, hpart⟩ : ∃ part, part = left.take (threshold - v.buffer.length) := ⟨_, rfl⟩
    have hlen : part.length = min (threshold - v.buffer.length) left.length := by rw [hpart, List.length_take]
    rw [← hpart]
    by_cases hok : (flushFull (Sink.observed S fails) threshold { v with buffer := v.buffer ++ part }).1 = .ok ()
    · have heven : Even threshold (n + part.length) _ := flushFull_even (w := { v with buffer := v.buffer ++ part }) h0
        (by dsimp only; rw [List.length_append]; omega) hk (by dsimp only; rw [List.length_append]; omega) hok
      refine .inl ⟨hok, heven.room, n + part.length, heven, ?_⟩
      rw [List.length_drop]
      omega
    · exact .inr ⟨hok, fun hx => absurd hx hok⟩

theorem append_even (h0 : 0 < threshold) {total offset : Nat} {content : List UInt8} {w : HeapWriter (Observed σ)}
    (h : Even threshold total w) (hx : (append (Sink.observed S fails) threshold content w).1 = .ok offset) :
    Even threshold (total + content.length) (append (Sink.observed S fails) threshold content w).2 := by
  obtain happend | ⟨hstate, hok⟩ := append_state (Sink.observed S fails) h0 content w
  · rw [happend] at hx
    cases hx
  · rw [hstate]
    exact gather_even h0 h (Nat.lt_succ_self _) (hok offset hx)

theorem each_append_even (h0 : 0 < threshold) {contents : List (List UInt8)} {total : Nat}
    {w : HeapWriter (Observed σ)} (h : Even threshold total w)
    (hx : ∀ x ∈ (Action.each (append (Sink.observed S fails) threshold) contents w).1, ∃ offset, x = .ok offset) :
    Even threshold (total + (contents.map List.length).sum)
      (Action.each (append (Sink.observed S fails) threshold) contents w).2 := by
  induction contents generalizing total w with
  | nil => exact h
  | cons content contents ih =>
    rw [Action.each_cons, List.forall_mem_cons] at hx
    obtain ⟨⟨offset, hoffset⟩, hrest⟩ := hx
    rw [Action.each_cons, List.map_cons, List.sum_cons, ← Nat.add_assoc]
    exact ih (append_even h0 h hoffset) hrest

theorem Even.appends {total : Nat} {w : HeapWriter (Observed σ)} (h : Even threshold total w) :
    w.sink.appends ++ leftOver w =
      List.replicate (total / threshold) threshold ++ if total % threshold = 0 then [] else [total % threshold] := by
  obtain ⟨hroom, k, hk, rfl⟩ := h
  have h0 : 0 < threshold := by omega
  have hdiv : (k * threshold + w.buffer.length) / threshold = k := by
    rw [Nat.mul_comm, Nat.mul_add_div h0, Nat.div_eq_of_lt hroom, Nat.add_zero]
  have hmod : (k * threshold + w.buffer.length) % threshold = w.buffer.length := by
    rw [Nat.mul_comm, Nat.mul_add_mod, Nat.mod_eq_of_lt hroom]
  rw [hk, hdiv, hmod, leftOver]
  simp only [List.length_eq_zero_iff]

/-! ## The discipline of a writer -/

theorem append_fits {bytes : σ → List UInt8} {Good : σ → Prop} {Fails : Error → Prop}
    (hS : S.Holds bytes Good Fails fun _ => True) (content : List UInt8) {w : HeapWriter σ}
    (h : Fits Good threshold w) : Fits Good threshold (append S threshold content w).2 := by
  by_cases hword : (written bytes w).length < 2 ^ 64
  · exact (append_holds hS h hword trivial).fits
  · rw [append_eq_trap hS h.good hword]
    exact h

/-- Whatever appends of the heap fail, no more than a portion is ever gathered, the loop of an append ends after one
round more than its content has bytes at the latest, and the sizes of the appends are those of full portions; the last
one, made in the end, may be smaller. Without failures these sizes do not depend on how the bytes are split into
contents. -/
theorem portions_full {heap : σ → Dataset UInt8} (hS : S.Over heap) (fails : Nat → Bool) (h0 : 0 < threshold)
    {s : σ} (hs : (heap s).Reached) (he : (heap s).store.extensible = true) (contents : List (List UInt8)) :
    let O := Sink.observed S fails
    let answers := (Action.each (append O threshold) contents ⟨⟨s, []⟩, []⟩).1
    let w := (Action.each (append O threshold) contents ⟨⟨s, []⟩, []⟩).2
    let total := (contents.map List.length).sum
    w.buffer.length ≤ threshold ∧ (∀ n ∈ w.sink.appends, n = threshold) ∧
    (∀ content, (∀ rounds, (gather O threshold rounds content w).2.buffer.length ≤ threshold) ∧
      (gather O threshold (content.length + 1) content w).1 ≠ .trap ∧
      ((heap w.sink.sink).size + w.buffer.length < 2 ^ 64 → (append O threshold content w).1 ≠ .trap)) ∧
    (∃ last, (last = [] ∨ ∃ n, last = [n] ∧ 1 ≤ n ∧ n ≤ threshold) ∧
      (finish O w).2.sink.appends = w.sink.appends ++ last ∧ (abandon O w).2.appends = w.sink.appends ++ last) ∧
    ((∀ x ∈ answers, ∃ offset, x = .ok offset) →
      (finish O w).2.sink.appends = List.replicate (total / threshold) threshold ++
        if total % threshold = 0 then [] else [total % threshold]) := by
  intro O answers w total
  have hO := (Sink.observed_over hS fails).holds
  have hport : Portioned threshold w :=
    Action.each_keeps (fun content _ => append_portioned h0 content) ⟨Nat.zero_le _, nofun⟩ contents
  have hfits : Fits (fun s : Observed σ => (heap s.sink).Grows) threshold w :=
    Action.each_keeps (fun content _ => append_fits hO content) ⟨⟨hs.sound, he⟩, Nat.zero_le _⟩ contents
  have hfinish : (finish O w).2.sink.appends = w.sink.appends ++ leftOver w := by
    rw [finish_state, flush_appends]
  refine ⟨hport.room, hport.full, ?_, ⟨leftOver w, ?_, hfinish, ?_⟩, ?_⟩
  · intro content
    refine ⟨fun rounds => (gather_portioned h0 rounds hport).room, ?_, ?_⟩
    · exact (gather_holds hO h0 hfits (.inl (Nat.lt_succ_self _)) trivial).taken.elim fun _ h => h.1.ne_trap
    · intro hword
      rw [← Dataset.length_elements, ← List.length_append] at hword
      exact (append_holds hO hfits hword trivial).taken.elim fun _ h => h.1.ne_trap
  · unfold leftOver
    by_cases hb : w.buffer = []
    · rw [if_pos hb]
      exact .inl rfl
    · rw [if_neg hb]
      exact .inr ⟨_, rfl, List.length_pos_iff.mpr hb, hport.room⟩
  · rw [abandon_sink, flush_appends]
  · intro hx
    have hnew : Even threshold 0 (⟨⟨s, []⟩, []⟩ : HeapWriter (Observed σ)) := ⟨h0, 0, rfl, Nat.zero_mul _⟩
    have heven := each_append_even h0 hnew hx
    rw [Nat.zero_add] at heven
    rw [hfinish]
    exact heven.appends

/-- A portion that could not be flushed stays full, and the next append flushes it before it takes anything in.
Without failures five bytes go in portions of two. -/
theorem portions_full_of_two :
    ∃ heap S T w, Dataset.New heap ∧ S = Sink.observed Sink.dataset (· == 0) ∧
      T = Sink.observed Sink.dataset (fun _ => false) ∧
      w = (Action.each (append S 2) [[1, 2, 3]] ⟨⟨heap, []⟩, []⟩).2 ∧ w.buffer = [1, 2] ∧
      (∀ content, (gather S 2 (content.length + 1) content w).1 ≠ .trap) ∧
      (∃ last, (last = [] ∨ ∃ n, last = [n] ∧ 1 ≤ n ∧ n ≤ 2) ∧ (abandon S w).2.appends = [2] ++ last) ∧
      (finish T (Action.each (append T 2) [[1, 2, 3], [4, 5]] ⟨⟨heap, []⟩, []⟩).2).2.sink.appends = [2, 2, 1] := by
  have hnew : Dataset.New (α := UInt8) ⟨[], ⟨Shape.rowMajor [0], .chunked [4] [], true, [4], 4, []⟩⟩ :=
    .uncompressed [] (show (4 : UInt64) ≠ 0 by decide)
  obtain ⟨-, -, hgather, ⟨last, hlast, -, habandon⟩, -⟩ :=
    portions_full Sink.dataset_over (· == 0) (show 0 < 2 by decide) hnew.reached rfl [[1, 2, 3]]
  obtain ⟨-, -, -, -, hsizes⟩ :=
    portions_full Sink.dataset_over (fun _ => false) (show 0 < 2 by decide) hnew.reached rfl [[1, 2, 3], [4, 5]]
  refine ⟨_, _, _, _, hnew, rfl, rfl, rfl, by decide, ?_, ⟨last, hlast, ?_⟩, hsizes ?_⟩
  · exact fun content => (hgather content).2.1
  · exact habandon.trans (congrArg (· ++ last) (by decide))
  · have hanswers : (Action.each (append (Sink.observed Sink.dataset fun _ => false) 2) [[1, 2, 3], [4, 5]]
        ⟨⟨⟨[], ⟨Shape.rowMajor [0], .chunked [4] [], true, [4], 4, []⟩⟩, []⟩, []⟩).1 = [.ok 0, .ok 3] := by
      decide +kernel
    intro x hx
    rw [hanswers, List.mem_cons, List.mem_singleton] at hx
    rcases hx with rfl | rfl
    · exact ⟨0, rfl⟩
    · exact ⟨3, rfl⟩

end Ragged.HeapWriter

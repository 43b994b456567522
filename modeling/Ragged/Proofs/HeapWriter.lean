import Ragged.Writing
import Ragged.Proofs.Sink

/-!
# Writing the heap

What a writer was given and took in is `written`: the bytes of its sink, and then the bytes it gathered. Appends
extend it at its end, by all of their content or by a first part of it if the sink fails; flushing leaves it as it
is. So a content that was taken in stays where its offset says, whatever fails before or after it.
-/

namespace Ragged

variable {σ α : Type}

def byteLengths (contents : List (List UInt8)) : List UInt64 :=
  contents.map fun content => UInt64.ofNat content.length

@[simp] theorem length_byteLengths (contents : List (List UInt8)) :
    (byteLengths contents).length = contents.length := List.length_map _

theorem take_drop_append {heap content : List α} {offset : Nat} (more : List α)
    (h : (heap.drop offset).take content.length = content) :
    ((heap ++ more).drop offset).take content.length = content := by
  have hlen : content.length ≤ (heap.drop offset).length := by
    rw [← congrArg List.length h, List.length_take]
    exact Nat.min_le_right ..
  rw [List.drop_append, List.take_append_of_le_length hlen, h]

namespace HeapWriter

/-- All of a content was taken in, with an answer, or a first part of it, with an error. -/
inductive Taken (Fails : Error → Prop) (content : List UInt8) (a : α) : Outcome α → List UInt8 → Prop
  | all : Taken Fails content a (.ok a) content
  | part {e : Error} {p : List UInt8} (he : Fails e) (hp : p <+: content) : Taken Fails content a (.fail e) p

theorem Taken.ne_trap {Fails : Error → Prop} {content p : List UInt8} {a : α} {x : Outcome α}
    (h : Taken Fails content a x p) : x ≠ .trap := by
  cases h with
  | all => exact nofun
  | part he hp => exact nofun

theorem Taken.of_ok {Fails : Error → Prop} {content p : List UInt8} {a b : α}
    (h : Taken Fails content a (.ok b) p) : p = content ∧ b = a := by
  cases h with
  | all => exact ⟨rfl, rfl⟩

theorem Taken.prefix {Fails : Error → Prop} {content p : List UInt8} {a : α} {x : Outcome α}
    (h : Taken Fails content a x p) : p <+: content := by
  cases h with
  | all => exact List.prefix_rfl
  | part he hp => exact hp

def written (bytes : σ → List UInt8) (w : HeapWriter σ) : List UInt8 := bytes w.sink ++ w.buffer

structure Fits (Good : σ → Prop) (threshold : Nat) (w : HeapWriter σ) : Prop where
  good : Good w.sink
  room : w.buffer.length ≤ threshold

/-- A step that took in a content, or a first part of it, and answered with `a` if it took in all. -/
structure Takes (bytes : σ → List UInt8) (Good : σ → Prop) (Fails : Error → Prop) (threshold : Nat)
    (content : List UInt8) (a : α) (w : HeapWriter σ) (r : Outcome α × HeapWriter σ) : Prop where
  fits : Fits Good threshold r.2
  taken : ∃ p, Taken Fails content a r.1 p ∧ written bytes r.2 = written bytes w ++ p

/-! ## The loop of an append -/

section
variable {S : Sink σ} {threshold : Nat}

theorem gather_nil (fuel : Nat) : gather S threshold fuel [] = pure () := by
  cases fuel <;> rfl

theorem gather_cons (fuel : Nat) (r : UInt8) (rest : List UInt8) {w : HeapWriter σ}
    (h : w.buffer.length ≤ threshold) :
    gather S threshold (fuel + 1) (r :: rest) w =
      (do flushFull S threshold; gather S threshold fuel ((r :: rest).drop (threshold - w.buffer.length)))
        { w with buffer := w.buffer ++ (r :: rest).take (threshold - w.buffer.length) } := by
  have hroom : (Action.view (fun w : HeapWriter σ => Word.sub threshold w.buffer.length) w).1 =
      .ok (threshold - w.buffer.length) := Word.sub_eq_ok h
  rw [gather, Action.bind_of_ok hroom]
  rfl

/-- A pass over the loop takes the bytes there is room for and flushes a full buffer. What holds of the bytes left
and the writer before every pass holds at the end. The first pass may find no room, after a flush that failed; every
later one takes in a byte at least. -/
theorem gather_rule (Inv : List UInt8 → HeapWriter σ → Prop) (Post : Outcome Unit → HeapWriter σ → Prop)
    (room : ∀ rest w, Inv rest w → w.buffer.length ≤ threshold)
    (done : ∀ w, Inv [] w → Post (.ok ()) w)
    (pass : ∀ rest w, rest ≠ [] → Inv rest w →
      let r := flushFull S threshold
        { w with buffer := w.buffer ++ rest.take (threshold - w.buffer.length) }
      r.1 = .ok () ∧ r.2.buffer.length < threshold ∧ Inv (rest.drop (threshold - w.buffer.length)) r.2 ∨
        r.1 ≠ .ok () ∧ Post r.1 r.2)
    {fuel : Nat} {rest : List UInt8} {w : HeapWriter σ} (h : Inv rest w)
    (hf : rest.length < fuel ∨ rest.length ≤ fuel ∧ w.buffer.length < threshold) :
    Post (gather S threshold fuel rest w).1 (gather S threshold fuel rest w).2 := by
  induction fuel generalizing rest w with
  | zero =>
    obtain rfl : rest = [] := List.eq_nil_of_length_eq_zero (by omega)
    exact done w h
  | succ fuel ih =>
    cases rest with
    | nil =>
      rw [gather_nil]
      exact done w h
    | cons r rest =>
      have hroom := room _ _ h
      rw [gather_cons fuel r rest hroom]
      obtain ⟨hx, hlt, hnext⟩ | ⟨hx, hpost⟩ := pass (r :: rest) w (List.cons_ne_nil r rest) h
      · rw [Action.bind_of_ok hx]
        refine ih hnext (.inr ⟨?_, hlt⟩)
        rw [List.length_drop]
        omega
      · rw [Action.bind_of_ne_ok hx]
        exact hpost

end

/-! ## The end of a writer -/

theorem finish_state (S : Sink σ) (w : HeapWriter σ) : (finish S w).2 = (flush S w).2 := by
  rw [finish, Action.bind_apply]
  rcases flush S w with ⟨x, w'⟩
  cases x with
  | ok u => rfl
  | fail e => rfl
  | trap => rfl

theorem abandon_sink (S : Sink σ) (w : HeapWriter σ) : (abandon S w).2 = (flush S w).2.sink := by
  unfold abandon
  rcases flush S w with ⟨x, w'⟩
  cases x with
  | ok u => rfl
  | fail e => rfl
  | trap => rfl

/-! ## Calls -/

section
variable {S : Sink σ} {bytes : σ → List UInt8} {Good : σ → Prop} {Fails : Error → Prop} {Fit : Nat → Prop}
  {threshold : Nat} (hS : S.Holds bytes Good Fails Fit)
include hS

theorem size_eq_ok {w : HeapWriter σ} (h : Good w.sink) (hlen : (written bytes w).length < 2 ^ 64) :
    size S w = .ok (written bytes w).length := by
  rw [written, List.length_append] at hlen ⊢
  rw [size, hS.size _ h, Word.add_eq_ok hlen]

theorem flush_holds {w : HeapWriter σ} (h : Good w.sink) (hfit : Fit (written bytes w).length) :
    Good (flush S w).2.sink ∧ written bytes (flush S w).2 = written bytes w ∧
      ((flush S w).1 = .ok () ∧ (flush S w).2.buffer = [] ∨
        ∃ e, Fails e ∧ (flush S w).1 = .fail e ∧ (flush S w).2.buffer = w.buffer) := by
  unfold flush
  by_cases hb : w.buffer = []
  · rw [if_pos hb]
    exact ⟨h, rfl, .inl ⟨rfl, hb⟩⟩
  · rw [if_neg hb]
    rw [written, List.length_append] at hfit
    obtain ⟨hgood, ⟨hx, hbytes⟩ | ⟨e, he, hx, hbytes⟩⟩ := hS.append _ w.buffer h hfit
    · rcases hr : S.append w.buffer w.sink with ⟨x, sink⟩
      rw [hr] at hgood hx hbytes
      obtain rfl := hx
      exact ⟨hgood, by simp [written, hbytes], .inl ⟨rfl, rfl⟩⟩
    · rcases hr : S.append w.buffer w.sink with ⟨x, sink⟩
      rw [hr] at hgood hx hbytes
      obtain rfl := hx
      exact ⟨hgood, by simp [written, hbytes], .inr ⟨e, he, rfl, rfl⟩⟩

theorem flushFull_holds (h0 : 0 < threshold) {w : HeapWriter σ} (h : Fits Good threshold w)
    (hfit : Fit (written bytes w).length) :
    Fits Good threshold (flushFull S threshold w).2 ∧
      written bytes (flushFull S threshold w).2 = written bytes w ∧
      ((flushFull S threshold w).1 = .ok () ∧ (flushFull S threshold w).2.buffer.length < threshold ∨
        ∃ e, Fails e ∧ (flushFull S threshold w).1 = .fail e) := by
  unfold flushFull
  by_cases hfull : w.buffer.length = threshold
  · rw [if_pos hfull]
    obtain ⟨hgood, hsame, ⟨hx, hb⟩ | ⟨e, he, hx, hb⟩⟩ := flush_holds hS h.good hfit
    · exact ⟨⟨hgood, by rw [hb]; exact Nat.zero_le _⟩, hsame, .inl ⟨hx, by rw [hb]; exact h0⟩⟩
    · exact ⟨⟨hgood, by rw [hb]; exact h.room⟩, hsame, .inr ⟨e, he, hx⟩⟩
  · rw [if_neg hfull]
    exact ⟨h, rfl, .inl ⟨rfl, Nat.lt_of_le_of_ne h.room hfull⟩⟩

theorem gather_holds (h0 : 0 < threshold) {fuel : Nat} {rest : List UInt8} {w : HeapWriter σ}
    (h : Fits Good threshold w) (hf : rest.length < fuel ∨ rest.length ≤ fuel ∧ w.buffer.length < threshold)
    (hfit : Fit ((written bytes w).length + rest.length)) :
    Takes bytes Good Fails threshold rest () w (gather S threshold fuel rest w) := by
  have hpost := gather_rule (S := S)
    (fun left v => Fits Good threshold v ∧ ∃ p, p ++ left = rest ∧ written bytes v = written bytes w ++ p)
    (fun x v => Fits Good threshold v ∧ ∃ p, Taken Fails rest () x p ∧ written bytes v = written bytes w ++ p)
    (fun left v hinv => hinv.1.room) ?done ?pass ⟨h, [], rfl, (List.append_nil _).symm⟩ hf
  case done =>
    rintro v ⟨hfits, p, hp, hv⟩
    rw [List.append_nil] at hp
    exact ⟨hfits, p, hp ▸ .all, hv⟩
  case pass =>
    rintro left v - ⟨hfits, p, hp, hv⟩
    obtain ⟨part, hpart⟩ : ∃ part, part = left.take (threshold - v.buffer.length) := ⟨_, rfl⟩
    have hall : p ++ part ++ left.drop (threshold - v.buffer.length) = rest := by
      rw [hpart, List.append_assoc, List.take_append_drop, hp]
    rw [← hpart]
    have hsofar : written bytes { v with buffer := v.buffer ++ part } = written bytes w ++ (p ++ part) := by
      rw [← List.append_assoc, ← hv]
      simp only [written, List.append_assoc]
    have hroom : Fits Good threshold { v with buffer := v.buffer ++ part } := by
      refine ⟨hfits.good, ?_⟩
      have := hfits.room
      simp only [hpart, List.length_append, List.length_take]
      omega
    have hle : (written bytes w ++ (p ++ part)).length ≤ (written bytes w).length + rest.length := by
      simp only [← hall, List.length_append]
      omega
    obtain ⟨hfits', hsame, ⟨hx, hlt⟩ | ⟨e, he, hx⟩⟩ :=
      flushFull_holds hS h0 hroom (hsofar ▸ hS.shorter hle hfit)
    · exact .inl ⟨hx, hlt, hfits', p ++ part, hall, hsame.trans hsofar⟩
    · exact .inr ⟨by rw [hx]; nofun, hfits', p ++ part, hx ▸ .part he ⟨_, hall⟩, hsame.trans hsofar⟩
  exact ⟨hpost.1, hpost.2⟩

theorem append_sink_holds {w : HeapWriter σ} (h : Fits Good threshold w) (hb : w.buffer = [])
    {content : List UInt8} (hfit : Fit ((written bytes w).length + content.length)) :
    Takes bytes Good Fails threshold content () w
      (Action.zoom HeapWriter.sink (fun sink w => { w with sink }) (S.append content) w) := by
  have hw : written bytes w = bytes w.sink := by rw [written, hb, List.append_nil]
  rw [hw] at hfit
  obtain ⟨hgood, ⟨hx, hbytes⟩ | ⟨e, he, hx, hbytes⟩⟩ := hS.append _ content h.good hfit
  · refine ⟨⟨hgood, h.room⟩, content, ?_, ?_⟩
    · simp only [Action.zoom, hx]
      exact .all
    · simp only [Action.zoom, written, hb, List.append_nil, hbytes]
  · refine ⟨⟨hgood, h.room⟩, [], ?_, ?_⟩
    · simp only [Action.zoom, hx]
      exact .part he List.nil_prefix
    · simp only [Action.zoom, written, hb, List.append_nil, hbytes]

omit hS in
theorem Takes.return {content : List UInt8} {w : HeapWriter σ} {a : Action (HeapWriter σ) Unit}
    (h : Takes bytes Good Fails threshold content () w (a w)) (n : α) :
    Takes bytes Good Fails threshold content n w ((do a; return n : Action (HeapWriter σ) α) w) := by
  obtain ⟨hfits, p, htaken, hp⟩ := h
  rw [Action.bind_apply]
  rcases ha : a w with ⟨x, w'⟩
  rw [ha] at hfits htaken hp
  cases htaken with
  | all => exact ⟨hfits, content, .all, hp⟩
  | part he hpre => exact ⟨hfits, p, .part he hpre, hp⟩

theorem append_holds {w : HeapWriter σ} (h : Fits Good threshold w) {content : List UInt8}
    (hword : (written bytes w).length < 2 ^ 64) (hfit : Fit ((written bytes w).length + content.length)) :
    Takes bytes Good Fails threshold content (written bytes w).length w (append S threshold content w) := by
  have hsize : (Action.view (size S) w).1 = .ok (written bytes w).length := size_eq_ok hS h.good hword
  unfold append
  rw [Action.bind_of_ok hsize]
  by_cases h0 : threshold = 0
  · have hb : w.buffer = [] := List.length_eq_zero_iff.mp (Nat.le_zero.mp (h0 ▸ h.room))
    simp only [if_pos h0]
    by_cases hc : content ≠ []
    · simp only [if_pos hc]
      exact (append_sink_holds hS h hb hfit).return _
    · simp only [if_neg hc]
      obtain rfl := not_not.mp hc
      exact ⟨h, [], .all, (List.append_nil _).symm⟩
  · simp only [if_neg h0]
    exact (gather_holds hS (Nat.pos_of_ne_zero h0) h (.inl (Nat.lt_succ_self _)) hfit).return _

theorem append_eq_trap {w : HeapWriter σ} (h : Good w.sink) (hword : ¬ (written bytes w).length < 2 ^ 64)
    (content : List UInt8) : append S threshold content w = (.trap, w) := by
  have hsize : size S w = .trap := by
    rw [written, List.length_append, ← hS.size _ h] at hword
    exact if_neg hword
  unfold append
  rw [Action.bind_apply, Action.view, hsize]

theorem finish_holds {w : HeapWriter σ} (h : Good w.sink) (hfit : Fit (written bytes w).length) :
    Good (finish S w).2.sink ∧
      ((finish S w).1 = .ok (written bytes w).length ∧ bytes (finish S w).2.sink = written bytes w ∨
        ∃ e, Fails e ∧ (finish S w).1 = .fail e ∧ bytes (finish S w).2.sink ++ w.buffer = written bytes w) := by
  obtain ⟨hgood, hsame, ⟨hx, hb⟩ | ⟨e, he, hx, hb⟩⟩ := flush_holds hS h hfit
  · have hbytes : bytes (flush S w).2.sink = written bytes w := by
      rw [← hsame, written, hb, List.append_nil]
    rw [finish, Action.bind_of_ok hx]
    refine ⟨hgood, .inl ⟨?_, hbytes⟩⟩
    rw [← hbytes, ← hS.size _ hgood]
    rfl
  · rw [finish, Action.bind_of_fail hx]
    exact ⟨hgood, .inr ⟨e, he, rfl, by rw [← hsame, written, hb]⟩⟩

theorem abandon_holds {w : HeapWriter σ} (h : Good w.sink) (hfit : Fit (written bytes w).length) :
    Good (abandon S w).2 ∧
      ((abandon S w).1 = none ∧ bytes (abandon S w).2 = written bytes w ∨
        (abandon S w).1 ≠ none ∧ bytes (abandon S w).2 ++ w.buffer = written bytes w) := by
  obtain ⟨hgood, hsame, hcases⟩ := flush_holds hS h hfit
  unfold abandon
  rcases hf : flush S w with ⟨x, w'⟩
  rw [hf] at hgood hsame hcases
  obtain ⟨rfl, hb⟩ | ⟨e, -, rfl, hb⟩ := hcases
  · exact ⟨hgood, .inl ⟨rfl, by rw [← hsame, written, hb, List.append_nil]⟩⟩
  · exact ⟨hgood, .inr ⟨nofun, by rw [← hsame, written, hb]⟩⟩

end

/-! ## Runs -/

section
variable {S : Sink σ} {bytes : σ → List UInt8} {Good : σ → Prop} {Fails : Error → Prop} {threshold : Nat}
  (hS : S.Keeps bytes Good Fails)
include hS

theorem append_spec {w : HeapWriter σ} (h : Fits Good threshold w) {content : List UInt8}
    (hlen : (written bytes w).length + content.length < 2 ^ 64) :
    Takes bytes Good Fails threshold content (written bytes w).length w (append S threshold content w) :=
  append_holds hS.holds h (Nat.lt_of_le_of_lt (Nat.le_add_right ..) hlen) hlen

theorem each_append_spec {contents : List (List UInt8)} {w : HeapWriter σ} (h : Fits Good threshold w)
    (hlen : (written bytes w).length + (contents.map List.length).sum < 2 ^ 64) :
    Fits Good threshold (Action.each (append S threshold) contents w).2 ∧
      (∃ p, p.length ≤ (contents.map List.length).sum ∧
        written bytes (Action.each (append S threshold) contents w).2 = written bytes w ++ p) ∧
      ∀ content offset, (content, Outcome.ok offset) ∈ contents.zip (Action.each (append S threshold) contents w).1 →
        ((written bytes (Action.each (append S threshold) contents w).2).drop offset).take content.length =
          content := by
  induction contents generalizing w with
  | nil =>
    refine ⟨h, ⟨[], Nat.le_refl _, (List.append_nil _).symm⟩, ?_⟩
    intro content offset hm
    cases hm
  | cons content contents ih =>
    rw [List.map_cons, List.sum_cons] at hlen ⊢
    obtain ⟨hfits, p, htaken, hp⟩ := append_spec hS h
      (show (written bytes w).length + content.length < 2 ^ 64 by omega)
    have hple := htaken.prefix.length_le
    obtain ⟨hfits', ⟨p', hple', hp'⟩, hlie⟩ := ih hfits
      (show _ + (contents.map List.length).sum < 2 ^ 64 by rw [hp, List.length_append]; omega)
    rw [Action.each_cons]
    refine ⟨hfits', ⟨p ++ p', by rw [List.length_append]; omega, ?_⟩, ?_⟩
    · rw [hp', hp, List.append_assoc]
    · intro c offset hm
      rw [List.zip_cons_cons, List.mem_cons] at hm
      rcases hm with heq | hm
      · obtain ⟨rfl, hx⟩ := Prod.mk.inj heq
        rw [← hx] at htaken
        obtain ⟨rfl, rfl⟩ := htaken.of_ok
        rw [hp']
        apply take_drop_append
        rw [hp, List.drop_left, List.take_length]
      · exact hlie c offset hm

theorem finish_spec {w : HeapWriter σ} (h : Good w.sink) (hlen : (written bytes w).length < 2 ^ 64) :
    Good (finish S w).2.sink ∧
      ((finish S w).1 = .ok (written bytes w).length ∧ bytes (finish S w).2.sink = written bytes w ∨
        ∃ e, Fails e ∧ (finish S w).1 = .fail e ∧ bytes (finish S w).2.sink ++ w.buffer = written bytes w) :=
  finish_holds hS.holds h hlen

theorem abandon_spec {w : HeapWriter σ} (h : Good w.sink) (hlen : (written bytes w).length < 2 ^ 64) :
    ((abandon S w).1 = none ∧ bytes (abandon S w).2 = written bytes w) ∨
      ((abandon S w).1 ≠ none ∧ bytes (abandon S w).2 ++ w.buffer = written bytes w) :=
  (abandon_holds hS.holds h hlen).2

/-- Whatever fails, bytes are only put after the bytes that a writer took in before: an append that answers puts
its content where it says, and one that fails puts a first part of it. What was answered for lies at its offset when
the writer has finished. If the last flush fails, the sink lacks what is still gathered and nothing else. A writer that
is abandoned leaves its sink as one that finishes does. -/
theorem contents_placed {s : σ} (hs : Good s) (threshold : Nat) {contents : List (List UInt8)}
    (hlen : (bytes s).length + (contents.map List.length).sum < 2 ^ 64) :
    (∀ before content after, contents = before ++ content :: after →
      let w := (Action.each (append S threshold) before ⟨s, []⟩).2
      let r := append S threshold content w
      r.1 ≠ .trap ∧ ∃ p, p <+: content ∧ written bytes r.2 = written bytes w ++ p ∧
        ∀ offset, r.1 = .ok offset → p = content ∧ offset = (written bytes w).length) ∧
    (let answers := (Action.each (append S threshold) contents ⟨s, []⟩).1
     let w := (Action.each (append S threshold) contents ⟨s, []⟩).2
     ((∃ n, (finish S w).1 = .ok n ∧ n = (bytes (finish S w).2.sink).length ∧
         bytes (finish S w).2.sink = written bytes w ∧
         ∀ content offset, (content, Outcome.ok offset) ∈ contents.zip answers →
           ((bytes (finish S w).2.sink).drop offset).take content.length = content) ∨
       ∃ e, (finish S w).1 = .fail e ∧ bytes (finish S w).2.sink ++ w.buffer = written bytes w) ∧
     (abandon S w).2 = (finish S w).2.sink ∧
     ((abandon S w).1 = none ∧ bytes (abandon S w).2 = written bytes w ∨
       (abandon S w).1 ≠ none ∧ bytes (abandon S w).2 ++ w.buffer = written bytes w)) := by
  have hnew : Fits Good threshold ⟨s, []⟩ := ⟨hs, Nat.zero_le _⟩
  have hbytes : written bytes ⟨s, []⟩ = bytes s := List.append_nil _
  constructor
  · intro before content after hc
    rw [hc, List.map_append, List.map_cons, List.sum_append, List.sum_cons] at hlen
    obtain ⟨hfits, ⟨p₀, hp₀, hw⟩, -⟩ := each_append_spec hS hnew
      (show _ + (before.map List.length).sum < 2 ^ 64 by rw [hbytes]; omega)
    obtain ⟨-, p, htaken, hp⟩ := append_spec hS hfits
      (show _ + content.length < 2 ^ 64 by rw [hw, hbytes, List.length_append]; omega)
    refine ⟨htaken.ne_trap, p, htaken.prefix, hp, ?_⟩
    intro offset hx
    rw [hx] at htaken
    exact htaken.of_ok
  · obtain ⟨hfits, ⟨p, hp, hw⟩, hlie⟩ := each_append_spec hS hnew (by rw [hbytes]; exact hlen)
    have hlt : (written bytes (Action.each (append S threshold) contents ⟨s, []⟩).2).length < 2 ^ 64 := by
      rw [hw, hbytes, List.length_append]
      omega
    refine ⟨?_, by rw [abandon_sink, finish_state], abandon_spec hS hfits.good hlt⟩
    obtain ⟨-, ⟨hx, hb⟩ | ⟨e, -, hx, hb⟩⟩ := finish_spec hS hfits.good hlt
    · exact .inl ⟨_, hx, by rw [hb], hb, by rw [hb]; exact hlie⟩
    · exact .inr ⟨e, hx, hb⟩

end

theorem contents_placed_after_failure :
    ∃ heap S run, Dataset.New heap ∧ S = Sink.observed Sink.dataset (· == 0) ∧
      run = Action.each (append S 2) [[1, 2, 3], [4]] ⟨⟨heap, []⟩, []⟩ ∧
      run.1 = [.fail (.invalidArgument "injected failure"), .ok 2] ∧ (finish S run.2).1 = .ok 3 ∧
      ((finish S run.2).2.sink.sink.elements.drop 2).take 1 = [4] := by
  have hnew : Dataset.New (α := UInt8) ⟨[], ⟨Shape.rowMajor [0], .chunked [4] [], true, [4], 4, []⟩⟩ :=
    .uncompressed [] (show (4 : UInt64) ≠ 0 by decide)
  refine ⟨_, _, _, hnew, rfl, rfl, by decide, by decide, ?_⟩
  have hlen : (Dataset.elements (α := UInt8) ⟨[], ⟨Shape.rowMajor [0], .chunked [4] [], true, [4], 4, []⟩⟩).length +
      (([[1, 2, 3], [4]] : List (List UInt8)).map List.length).sum < 2 ^ 64 := by decide
  obtain ⟨n, -, -, -, hlie⟩ | ⟨e, he, -⟩ := (contents_placed (Sink.observed_keeps Sink.dataset_keeps (· == 0))
    (s := ⟨_, []⟩) (hnew.grows rfl) 2 hlen).2.1
  · exact hlie [4] 2 (by decide)
  · cases he

/-! ## Writing contents -/

/-- Contents were written: all of them, with an answer, or a first part, with an error. A first part without either
is left only if the size of the heap would be no word. -/
inductive Ended (Fails : Error → Prop) (total : Nat) (content : List UInt8) (a : α) :
    Outcome α → List UInt8 → Prop
  | all : Ended Fails total content a (.ok a) content
  | part {e : Error} {p : List UInt8} (he : Fails e) (hp : p <+: content) : Ended Fails total content a (.fail e) p
  | overflow {p : List UInt8} (htotal : 2 ^ 64 ≤ total) (hp : p <+: content) : Ended Fails total content a .trap p

theorem Ended.prefix {Fails : Error → Prop} {total : Nat} {content p : List UInt8} {a : α} {x : Outcome α}
    (h : Ended Fails total content a x p) : p <+: content := by
  cases h with
  | all => exact List.prefix_rfl
  | part he hp => exact hp
  | overflow htotal hp => exact hp

theorem exists_prefix_of_append {before sink buffer p : List UInt8} (hsink : before <+: sink)
    (h : sink ++ buffer = before ++ p) : ∃ q, q <+: p ∧ sink = before ++ q := by
  obtain ⟨q, rfl⟩ := hsink
  rw [List.append_assoc] at h
  exact ⟨q, ⟨buffer, List.append_cancel_left h⟩, rfl⟩

section
variable {S : Sink σ} {bytes : σ → List UInt8} {Good : σ → Prop} {Fails : Error → Prop} {Fit : Nat → Prop}
  {threshold : Nat} (hS : S.Holds bytes Good Fails Fit)
include hS

theorem collect_append_holds {contents : List (List UInt8)} {w : HeapWriter σ} (h : Fits Good threshold w)
    (hfit : Fit ((written bytes w).length + contents.flatten.length)) :
    let r := Action.collect (fun content => do
      let _ ← append S threshold content
      return UInt64.ofNat content.length) contents w
    Fits Good threshold r.2 ∧
      ∃ p, Ended Fails ((written bytes w).length + contents.flatten.length) contents.flatten (byteLengths contents)
          r.1 p ∧
        written bytes r.2 = written bytes w ++ p := by
  induction contents generalizing w with
  | nil => exact ⟨h, [], .all, (List.append_nil _).symm⟩
  | cons content contents ih =>
    rw [List.flatten_cons, List.length_append] at hfit ⊢
    dsimp only
    rw [Action.collect, Action.bind_apply, Action.bind_apply]
    by_cases hword : (written bytes w).length < 2 ^ 64
    · obtain ⟨hfits, p, htaken, hp⟩ := append_holds hS h hword
        (hS.shorter (show _ + content.length ≤ _ by omega) hfit)
      rcases ha : append S threshold content w with ⟨x, w'⟩
      rw [ha] at hfits htaken hp
      cases htaken with
      | part he hpre => exact ⟨hfits, p, .part he (hpre.trans (List.prefix_append ..)), hp⟩
      | all =>
        have hlen : (written bytes w').length = (written bytes w).length + content.length := by
          rw [hp, List.length_append]
        obtain ⟨hfits', p', hended, hp'⟩ := ih hfits (by rw [hlen, Nat.add_assoc]; exact hfit)
        rw [hlen, Nat.add_assoc] at hended
        dsimp only [Action.pure_apply]
        rw [Action.bind_apply]
        rcases hc : Action.collect (fun content => do
          let _ ← append S threshold content
          return UInt64.ofNat content.length) contents w' with ⟨y, w''⟩
        rw [hc] at hfits' hended hp'
        rw [hp, List.append_assoc] at hp'
        cases hended with
        | all => exact ⟨hfits', _, .all, hp'⟩
        | part he hpre => exact ⟨hfits', _, .part he ((List.prefix_append_right_inj content).mpr hpre), hp'⟩
        | overflow htotal hpre =>
          exact ⟨hfits', _, .overflow htotal ((List.prefix_append_right_inj content).mpr hpre), hp'⟩
    · rw [append_eq_trap hS h.good hword]
      exact ⟨h, [], .overflow (by omega) List.nil_prefix, (List.append_nil _).symm⟩

theorem appendAll_holds (threshold : Nat) (contents : List (List UInt8)) {s : σ} (hs : Good s)
    (hword : (bytes s).length < 2 ^ 64) (hfit : Fit ((bytes s).length + contents.flatten.length)) :
    Fits Good threshold (appendAll S threshold contents ⟨s, []⟩).2 ∧
      ∃ p, Ended Fails ((bytes s).length + contents.flatten.length) contents.flatten
          ⟨UInt64.ofNat (bytes s).length, byteLengths contents⟩ (appendAll S threshold contents ⟨s, []⟩).1 p ∧
        written bytes (appendAll S threshold contents ⟨s, []⟩).2 = bytes s ++ p := by
  have hbytes : written bytes ⟨s, []⟩ = bytes s := List.append_nil _
  have hsize : (Action.view (size S) ⟨s, []⟩).1 = .ok (bytes s).length := by
    rw [← hbytes]
    exact size_eq_ok hS hs (hbytes ▸ hword)
  have hcollect := collect_append_holds hS (show Fits Good threshold ⟨s, []⟩ from ⟨hs, Nat.zero_le _⟩)
    (show Fit (_ + contents.flatten.length) from hbytes ▸ hfit)
  rw [appendAll, Action.bind_of_ok hsize, Action.bind_apply,
    show (Action.view (size S) ⟨s, []⟩).2 = ⟨s, []⟩ from rfl]
  rw [hbytes] at hcollect
  rcases hc : Action.collect (fun content => do
    let _ ← append S threshold content
    return UInt64.ofNat content.length) contents ⟨s, []⟩ with ⟨x, w⟩
  rw [hc] at hcollect
  obtain ⟨hfits, p, hended, hp⟩ := hcollect
  cases hended with
  | all => exact ⟨hfits, _, .all, hp⟩
  | part he hpre => exact ⟨hfits, p, .part he hpre, hp⟩
  | overflow htotal hpre => exact ⟨hfits, p, .overflow htotal hpre, hp⟩

/-- However the writing of contents ends, what the sink held is still there, and after it come the contents or a
first part of them. -/
theorem write_holds (threshold : Nat) (contents : List (List UInt8)) {s : σ} (hs : Good s)
    (hword : (bytes s).length < 2 ^ 64) (hfit : Fit ((bytes s).length + contents.flatten.length)) :
    Good (write S threshold contents s).2 ∧
      ∃ p, Ended Fails ((bytes s).length + contents.flatten.length) contents.flatten
          ⟨UInt64.ofNat (bytes s).length, byteLengths contents⟩ (write S threshold contents s).1 p ∧
        bytes (write S threshold contents s).2 = bytes s ++ p := by
  have hS' := hS.above (bytes s)
  obtain ⟨hfits, p, hended, hp⟩ := appendAll_holds hS' threshold contents ⟨hs, List.prefix_rfl⟩ hword hfit
  rcases ha : appendAll S threshold contents ⟨s, []⟩ with ⟨x, w⟩
  rw [ha] at hfits hended hp
  have hfit' : Fit (written bytes w).length := by
    refine hS.shorter ?_ hfit
    have := hended.prefix.length_le
    rw [hp, List.length_append]
    omega
  have habandon : Good (abandon S w).2 ∧ ∃ q, q <+: p ∧ bytes (abandon S w).2 = bytes s ++ q := by
    obtain ⟨⟨hgood, hpre⟩, ⟨-, hbytes⟩ | ⟨-, hbytes⟩⟩ := abandon_holds hS' hfits.good hfit'
    · exact ⟨hgood, p, List.prefix_rfl, hbytes.trans hp⟩
    · exact ⟨hgood, exists_prefix_of_append hpre (hbytes.trans hp)⟩
  cases hended with
  | all =>
    simp only [write, writeWarning, ha]
    obtain ⟨⟨hgood, hpre⟩, ⟨hx, hbytes⟩ | ⟨e, he, hx, hbytes⟩⟩ := finish_holds hS' hfits.good hfit'
    · rw [hx]
      exact ⟨hgood, _, .all, hbytes.trans hp⟩
    · obtain ⟨q, hq, hbytes⟩ := exists_prefix_of_append hpre (hbytes.trans hp)
      rw [hx]
      exact ⟨hgood, q, .part he hq, hbytes⟩
  | part he hpre =>
    obtain ⟨hgood, q, hq, hbytes⟩ := habandon
    simp only [write, writeWarning, ha]
    exact ⟨hgood, q, .part he (hq.trans hpre), hbytes⟩
  | overflow htotal hpre =>
    obtain ⟨hgood, q, hq, hbytes⟩ := habandon
    simp only [write, writeWarning, ha]
    exact ⟨hgood, q, .overflow htotal (hq.trans hpre), hbytes⟩

end

theorem write_eq_ok {S : Sink σ} {bytes : σ → List UInt8} {Good : σ → Prop}
    (hS : S.Keeps bytes Good fun _ => False) (threshold : Nat) {s : σ} (hs : Good s) {contents : List (List UInt8)}
    (hlen : (bytes s).length + contents.flatten.length < 2 ^ 64) :
    ∃ s', write S threshold contents s =
        (.ok ⟨UInt64.ofNat (bytes s).length, byteLengths contents⟩, s') ∧
      Good s' ∧ bytes s' = bytes s ++ contents.flatten := by
  obtain ⟨hgood, p, hended, hp⟩ := write_holds hS.holds threshold contents hs
    (Nat.lt_of_le_of_lt (Nat.le_add_right ..) hlen) hlen
  rcases hr : write S threshold contents s with ⟨x, s'⟩
  rw [hr] at hgood hended hp
  cases hended with
  | all => exact ⟨s', rfl, hgood, hp⟩
  | part he => exact he.elim
  | overflow htotal => exact absurd hlen (Nat.not_lt.mpr htotal)

end HeapWriter

end Ragged

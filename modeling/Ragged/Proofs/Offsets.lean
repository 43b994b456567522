import Mathlib.Algebra.Order.BigOperators.Group.List
import Ragged.Proofs.HeapWriter

/-!
# Offsets

Where contents lie is found twice. The writer knows how long the heap was when it took a content in, and the sums of
the lengths are formed again, with checks, when the pointers are written. Both give the same words.
-/

namespace Ragged

/-! ## Sums of lengths -/

theorem toNat_ofNat_of_lt {n : Nat} (h : n < 2 ^ 64) : (UInt64.ofNat n).toNat = n :=
  UInt64.toNat_ofNat_of_lt' h

theorem sum_byteLengths {contents : List (List UInt8)} (h : contents.flatten.length < 2 ^ 64) :
    ((byteLengths contents).map UInt64.toNat).sum = contents.flatten.length := by
  induction contents with
  | nil => rfl
  | cons content contents ih =>
    rw [List.flatten_cons, List.length_append] at h ⊢
    rw [byteLengths, List.map_cons, List.map_cons, List.sum_cons, ← byteLengths, ih (by omega),
      toNat_ofNat_of_lt (by omega)]

def HeapSpan.stop (span : HeapSpan) : Nat := span.start.toNat + (span.lengths.map UInt64.toNat).sum

namespace Pointer

variable {start : UInt64} {lengths offsets : List UInt64}

theorem offsetsFrom_cons_eq {length : UInt64} (h : start.toNat + length.toNat < 2 ^ 64) :
    offsetsFrom start (length :: lengths) =
      (do return start :: (← offsetsFrom (UInt64.ofNat (start.toNat + length.toNat)) lengths)) := by
  rw [offsetsFrom, Word.add?_eq_some h]

theorem offsetsFrom_cons_fail {length : UInt64} (h : ¬ start.toNat + length.toNat < 2 ^ 64)
    (lengths : List UInt64) : ∃ e, offsetsFrom start (length :: lengths) = .fail e := by
  rw [offsetsFrom, Word.add?_eq_none h]
  exact ⟨_, rfl⟩

theorem offsetsFrom_cons {length : UInt64} (h : offsetsFrom start (length :: lengths) = .ok offsets) :
    start.toNat + length.toNat < 2 ^ 64 ∧
      ∃ rest, offsetsFrom (UInt64.ofNat (start.toNat + length.toNat)) lengths = .ok rest ∧
        offsets = start :: rest := by
  by_cases hstop : start.toNat + length.toNat < 2 ^ 64
  · rw [offsetsFrom_cons_eq hstop] at h
    obtain ⟨rest, hrest, h⟩ := Outcome.bind_eq_ok.mp h
    exact ⟨hstop, rest, hrest, (Outcome.ok.inj h).symm⟩
  · obtain ⟨e, he⟩ := offsetsFrom_cons_fail hstop lengths
    rw [he] at h
    cases h

theorem length_offsetsFrom (h : offsetsFrom start lengths = .ok offsets) : offsets.length = lengths.length := by
  induction lengths generalizing start offsets with
  | nil =>
    obtain rfl := Outcome.ok.inj h
    rfl
  | cons length lengths ih =>
    obtain ⟨-, rest, hrest, rfl⟩ := offsetsFrom_cons h
    rw [List.length_cons, List.length_cons, ih hrest]

theorem getElem?_offsetsFrom (h : offsetsFrom start lengths = .ok offsets) {i : Nat} {length : UInt64}
    (hi : lengths[i]? = some length) :
    ∃ offset, offsets[i]? = some offset ∧
      offset.toNat = start.toNat + ((lengths.take i).map UInt64.toNat).sum := by
  induction lengths generalizing start offsets i with
  | nil => cases hi
  | cons first lengths ih =>
    obtain ⟨hstop, rest, hrest, rfl⟩ := offsetsFrom_cons h
    cases i with
    | zero => exact ⟨start, rfl, rfl⟩
    | succ i =>
      obtain ⟨offset, hoffset, hsum⟩ := ih hrest hi
      refine ⟨offset, hoffset, ?_⟩
      rw [hsum, toNat_ofNat_of_lt hstop, List.take_succ_cons, List.map_cons, List.sum_cons, Nat.add_assoc]

theorem offsetsFrom_cases (start : UInt64) (lengths : List UInt64) :
    start.toNat + (lengths.map UInt64.toNat).sum < 2 ^ 64 ∧ (∃ offsets, offsetsFrom start lengths = .ok offsets) ∨
      ¬ start.toNat + (lengths.map UInt64.toNat).sum < 2 ^ 64 ∧ ∃ e, offsetsFrom start lengths = .fail e := by
  induction lengths generalizing start with
  | nil => exact .inl ⟨UInt64.toNat_lt start, [], rfl⟩
  | cons length lengths ih =>
    rw [List.map_cons, List.sum_cons, ← Nat.add_assoc]
    by_cases hstop : start.toNat + length.toNat < 2 ^ 64
    · have ih := ih (UInt64.ofNat (start.toNat + length.toNat))
      rw [toNat_ofNat_of_lt hstop] at ih
      rw [offsetsFrom_cons_eq hstop]
      obtain ⟨hlt, offsets, hok⟩ | ⟨hlt, e, hfail⟩ := ih
      · exact .inl ⟨hlt, start :: offsets, by rw [hok]; rfl⟩
      · exact .inr ⟨hlt, e, by rw [hfail]; rfl⟩
    · exact .inr ⟨fun h => hstop (by omega), offsetsFrom_cons_fail hstop lengths⟩

theorem exists_offsetsFrom_iff (start : UInt64) (lengths : List UInt64) :
    (∃ offsets, offsetsFrom start lengths = .ok offsets) ↔
      start.toNat + (lengths.map UInt64.toNat).sum < 2 ^ 64 := by
  obtain ⟨hstop, hok⟩ | ⟨hstop, e, hfail⟩ := offsetsFrom_cases start lengths
  · exact ⟨fun _ => hstop, fun _ => hok⟩
  · rw [hfail]
    exact ⟨nofun, fun h => absurd h hstop⟩

theorem offsetsFrom_ne_trap (start : UInt64) (lengths : List UInt64) : offsetsFrom start lengths ≠ .trap := by
  obtain ⟨-, offsets, hok⟩ | ⟨-, e, hfail⟩ := offsetsFrom_cases start lengths
  · rw [hok]
    nofun
  · rw [hfail]
    nofun

def outside (p : Pointer) (size : Nat) : Error :=
  .corruption s!"pointer {p.render} out of range of the heap of {size} bytes"

theorem checkWithin_eq (p : Pointer) {size : Nat} (hs : size < 2 ^ 64) :
    p.checkWithin size =
      if p.offset.toNat + p.length.toNat ≤ size then .ok (p.offset.toNat, p.offset.toNat + p.length.toNat)
      else .fail (p.outside size) := by
  unfold checkWithin byteRange?
  by_cases hword : p.offset.toNat + p.length.toNat < 2 ^ 64
  · rw [Word.add?_eq_some hword]
    rfl
  · rw [Word.add?_eq_none hword, if_neg (by omega)]
    rfl

end Pointer

theorem sum_take_succ {lengths : List UInt64} {i : Nat} {length : UInt64} (hi : lengths[i]? = some length) :
    ((lengths.take (i + 1)).map UInt64.toNat).sum =
      ((lengths.take i).map UInt64.toNat).sum + length.toNat := by
  rw [List.take_add_one, hi]
  simp

/-- Contents that lie back to back fit in a heap that ends where the last of them does, each from its offset on, and
the next one starts where it ends. -/
theorem Pointer.offsetsFrom_abut {start : UInt64} {lengths offsets : List UInt64}
    (hstop : start.toNat + (lengths.map UInt64.toNat).sum < 2 ^ 64) (h : offsetsFrom start lengths = .ok offsets)
    {i : Nat} {length : UInt64} (hi : lengths[i]? = some length) :
    ∃ offset, offsets[i]? = some offset ∧
      offset.toNat = start.toNat + ((lengths.take i).map UInt64.toNat).sum ∧
      checkWithin ⟨offset, length⟩ (start.toNat + (lengths.map UInt64.toNat).sum) =
        .ok (offset.toNat, offset.toNat + length.toNat) ∧
      offset.toNat + length.toNat =
        (offsets[i + 1]?.map UInt64.toNat).getD (start.toNat + (lengths.map UInt64.toNat).sum) := by
  obtain ⟨offset, hoffset, hsum⟩ := getElem?_offsetsFrom h hi
  have hend : offset.toNat + length.toNat = start.toNat + ((lengths.take (i + 1)).map UInt64.toNat).sum := by
    rw [hsum, sum_take_succ hi, Nat.add_assoc]
  refine ⟨offset, hoffset, hsum, ?_, ?_⟩
  · have hle : ((lengths.take (i + 1)).map UInt64.toNat).sum ≤ (lengths.map UInt64.toNat).sum :=
      ((List.take_sublist ..).map _).sum_le_sum (by simp)
    rw [checkWithin_eq _ hstop, if_pos]
    rw [hend]
    exact Nat.add_le_add_left hle _
  · cases hnext : lengths[i + 1]? with
    | some next =>
      obtain ⟨offset', hoffset', hsum'⟩ := getElem?_offsetsFrom h hnext
      rw [hoffset', hend]
      exact hsum'.symm
    | none =>
      have hlen := List.getElem?_eq_none_iff.mp hnext
      have hnone : offsets[i + 1]? = none := List.getElem?_eq_none (by rw [length_offsetsFrom h]; exact hlen)
      rw [hnone, hend, List.take_of_length_le hlen]
      rfl

/-! ## Answers of the writer -/

namespace HeapWriter

section
variable {σ : Type} {S : Sink σ} {bytes : σ → List UInt8} {Good : σ → Prop} {Fails : Error → Prop} {Fit : Nat → Prop}
  {threshold : Nat} (hS : S.Holds bytes Good Fails Fit)
include hS

theorem append_of_ok {w : HeapWriter σ} (h : Fits Good threshold w) {content : List UInt8}
    (hfit : Fit ((written bytes w).length + content.length)) {offset : Nat}
    (hx : (append S threshold content w).1 = .ok offset) :
    Fits Good threshold (append S threshold content w).2 ∧ offset = (written bytes w).length ∧
      written bytes (append S threshold content w).2 = written bytes w ++ content := by
  by_cases hword : (written bytes w).length < 2 ^ 64
  · obtain ⟨hfits, p, htaken, hp⟩ := append_holds hS h hword hfit
    rw [hx] at htaken
    obtain ⟨rfl, rfl⟩ := htaken.of_ok
    exact ⟨hfits, rfl, hp⟩
  · rw [append_eq_trap hS h.good hword] at hx
    cases hx

theorem each_append_of_ok {contents : List (List UInt8)} {w : HeapWriter σ} (h : Fits Good threshold w)
    (hfit : Fit ((written bytes w).length + contents.flatten.length)) {answers : List Nat}
    (hanswers : (Action.each (append S threshold) contents w).1 = answers.map .ok) {offsets : List UInt64}
    (hoffsets : Pointer.offsetsFrom (UInt64.ofNat (written bytes w).length) (byteLengths contents) = .ok offsets)
    (hlen : (written bytes w).length + contents.flatten.length < 2 ^ 64) :
    answers = offsets.map UInt64.toNat := by
  induction contents generalizing w answers offsets with
  | nil =>
    obtain rfl := Outcome.ok.inj hoffsets
    exact List.map_eq_nil_iff.mp hanswers.symm
  | cons content contents ih =>
    rw [List.flatten_cons, List.length_append] at hfit hlen
    rw [Action.each_cons] at hanswers
    obtain ⟨answer, answers, rfl, hfirst, hrest⟩ := List.map_eq_cons_iff.mp hanswers.symm
    obtain ⟨hfits, rfl, hwritten⟩ := append_of_ok hS h
      (hS.shorter (show _ + content.length ≤ _ by omega) hfit) hfirst.symm
    have hlength : (written bytes (append S threshold content w).2).length =
        (written bytes w).length + content.length := by rw [hwritten, List.length_append]
    rw [byteLengths, List.map_cons, ← byteLengths] at hoffsets
    obtain ⟨-, offsets, htail, rfl⟩ := Pointer.offsetsFrom_cons hoffsets
    rw [toNat_ofNat_of_lt (show (written bytes w).length < 2 ^ 64 by omega),
      toNat_ofNat_of_lt (show content.length < 2 ^ 64 by omega), ← hlength] at htail
    rw [← Nat.add_assoc, ← hlength] at hfit hlen
    rw [List.map_cons, ← ih hfits hfit hrest.symm htail hlen,
      toNat_ofNat_of_lt (Nat.lt_of_le_of_lt (by omega) hlen)]

end

/-- A writing that succeeds is an append for each content, all with answers, and then the end of the writer. -/
theorem write_steps {σ : Type} {S : Sink σ} {threshold : Nat} {contents : List (List UInt8)} {s s' : σ}
    {span : HeapSpan} (h : write S threshold contents s = (.ok span, s')) :
    ∃ (answers : List Nat) (w : HeapWriter σ),
      Action.each (append S threshold) contents ⟨s, []⟩ = (answers.map .ok, w) ∧ s' = (finish S w).2.sink := by
  rcases ha : appendAll S threshold contents ⟨s, []⟩ with ⟨x, w⟩
  simp only [write, writeWarning, ha] at h
  cases x with
  | fail e => cases h
  | trap => cases h
  | ok all =>
    unfold appendAll at ha
    obtain ⟨start, w', hsize, ha⟩ := Action.bind_eq_ok.mp ha
    obtain ⟨-, rfl⟩ := Prod.mk.inj hsize
    obtain ⟨lengths, w'', hc, ha⟩ := Action.bind_eq_ok.mp ha
    obtain ⟨-, rfl⟩ := Prod.mk.inj ha
    obtain ⟨answers, heach⟩ := Action.each_of_collect hc
    exact ⟨answers, w'', heach, (congrArg Prod.snd h).symm⟩

theorem write_of_ok {σ : Type} {S : Sink σ} {heap : σ → Dataset UInt8} (hS : S.Over heap) {s s' : σ}
    (hs : (heap s).Grows) {threshold : Nat} {contents : List (List UInt8)} {span : HeapSpan}
    (h : write S threshold contents s = (.ok span, s')) :
    span = ⟨UInt64.ofNat (heap s).size, byteLengths contents⟩ ∧
      (heap s').size = (heap s).size + contents.flatten.length ∧ (heap s').size < 2 ^ 64 := by
  obtain ⟨hgrows, p, hended, hp⟩ := write_holds hS.holds threshold contents hs
    (by rw [Dataset.length_elements]; exact hs.size_lt) trivial
  rw [h] at hgrows hended hp
  rw [Dataset.length_elements] at hended
  cases hended with
  | all =>
    refine ⟨rfl, ?_, hgrows.size_lt⟩
    rw [← Dataset.length_elements, hp, List.length_append, Dataset.length_elements]

end HeapWriter

/-- The checked sums of the lengths are words if and only if the end of the last content is, and then the contents
lie back to back in a heap that ends there. After a writing that succeeded they are the answers of the writer to the
appends of the contents, however often it flushed. -/
theorem offsets_recomputed :
    (∀ (start : UInt64) (lengths : List UInt64),
      let stop := start.toNat + (lengths.map UInt64.toNat).sum
      ((∃ offsets, Pointer.offsetsFrom start lengths = .ok offsets) ↔ stop < 2 ^ 64) ∧
      Pointer.offsetsFrom start lengths ≠ .trap ∧
      ∀ offsets, Pointer.offsetsFrom start lengths = .ok offsets → offsets.length = lengths.length ∧
        ∀ (i : Nat) length, lengths[i]? = some length → ∃ offset, offsets[i]? = some offset ∧
          offset.toNat = start.toNat + ((lengths.take i).map UInt64.toNat).sum ∧
          Pointer.checkWithin ⟨offset, length⟩ stop = .ok (offset.toNat, offset.toNat + length.toNat) ∧
          offset.toNat + length.toNat = (offsets[i + 1]?.map UInt64.toNat).getD stop) ∧
    ∀ {σ : Type} {S : Sink σ} {heap : σ → Dataset UInt8}, S.Over heap → ∀ s, (heap s).Reached →
      (heap s).store.extensible = true → ∀ threshold contents span s',
      HeapWriter.write S threshold contents s = (.ok span, s') →
      let run := Action.each (HeapWriter.append S threshold) contents ⟨s, []⟩
      s' = (HeapWriter.finish S run.2).2.sink ∧ span.stop = (heap s').size ∧
      ∃ offsets, span.offsets = .ok offsets ∧ run.1 = offsets.map fun offset => .ok offset.toNat := by
  constructor
  · intro start lengths stop
    have hiff := Pointer.exists_offsetsFrom_iff start lengths
    refine ⟨hiff, Pointer.offsetsFrom_ne_trap start lengths, ?_⟩
    intro offsets h
    have hstop := hiff.mp ⟨offsets, h⟩
    exact ⟨Pointer.length_offsetsFrom h, fun i length hi => Pointer.offsetsFrom_abut hstop h hi⟩
  · intro σ S heap hS s hs he threshold contents span s' h run
    have hgrows : (heap s).Grows := ⟨hs.sound, he⟩
    obtain ⟨rfl, hsize, hlen⟩ := HeapWriter.write_of_ok hS hgrows h
    obtain ⟨answers, w, heach, rfl⟩ := HeapWriter.write_steps h
    rw [hsize] at hlen
    have hstart : (UInt64.ofNat (heap s).size).toNat = (heap s).size := toNat_ofNat_of_lt (by omega)
    have hsum : ((byteLengths contents).map UInt64.toNat).sum = contents.flatten.length :=
      sum_byteLengths (by omega)
    obtain ⟨offsets, hoffsets⟩ := (Pointer.exists_offsetsFrom_iff (UInt64.ofNat (heap s).size)
      (byteLengths contents)).mpr (by rw [hstart, hsum]; exact hlen)
    have hempty : HeapWriter.written (fun s => (heap s).elements) ⟨s, []⟩ = (heap s).elements := List.append_nil _
    have hanswers : answers = offsets.map UInt64.toNat := by
      refine HeapWriter.each_append_of_ok hS.holds ⟨hgrows, Nat.zero_le _⟩ trivial (congrArg Prod.fst heach) ?_ ?_
      · rw [hempty, Dataset.length_elements]
        exact hoffsets
      · rw [hempty, Dataset.length_elements]
        exact hlen
    have hrun : run = (answers.map .ok, w) := heach
    refine ⟨by rw [hrun], ?_, offsets, hoffsets, ?_⟩
    · rw [HeapSpan.stop, hstart, hsum, hsize]
    · rw [hrun, hanswers, List.map_map]
      rfl

theorem offsets_recomputed_after_flush :
    ∃ (heap heap' : Dataset UInt8) (span : HeapSpan), heap.Reached ∧
      HeapWriter.write Sink.dataset 2 [[1, 2, 3], [], [4]] heap = (.ok span, heap') ∧
      (Action.each (HeapWriter.append Sink.dataset 2) [[1, 2, 3], [], [4]] ⟨heap, []⟩).1 = [.ok 1, .ok 4, .ok 4] ∧
      span.offsets = .ok [1, 4, 4] ∧ span.stop = heap'.size ∧
      (∃ offsets, Pointer.offsetsFrom (UInt64.ofNat Word.last) [0] = .ok offsets) ∧
      ¬ ∃ offsets, Pointer.offsetsFrom (UInt64.ofNat Word.last) [1] = .ok offsets := by
  have hheap := (Dataset.New.uncompressed [] (show (4 : UInt64) ≠ 0 by decide)).reached.perform
    (.append ([9] : List UInt8)) trivial
  obtain ⟨heap', hwrite, -, -⟩ := HeapWriter.write_eq_ok Sink.dataset_keeps 2 ⟨hheap.sound, rfl⟩
    (show _ + ([[1, 2, 3], [], [4]] : List (List UInt8)).flatten.length < 2 ^ 64 by decide)
  obtain ⟨hsums, hwrites⟩ := offsets_recomputed
  obtain ⟨-, hstop, offsets, hoffsets, hanswers⟩ := hwrites Sink.dataset_over _ hheap rfl 2 _ _ _ hwrite
  obtain rfl : [1, 4, 4] = offsets := Outcome.ok.inj (Eq.trans (by decide +kernel) hoffsets)
  refine ⟨_, heap', _, hheap, hwrite, hanswers, hoffsets, hstop, (hsums _ _).1.mpr (by decide), ?_⟩
  rw [(hsums _ _).1]
  decide

end Ragged

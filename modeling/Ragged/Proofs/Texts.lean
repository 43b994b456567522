import Mathlib.Data.List.TakeWhile
import Ragged.Proofs.History
import Ragged.Proofs.Utf8

/-!
# Texts

Texts are written as their encodings. The byte of NUL is in no other character, so a content that is cut there is cut
between characters, and what is left is the text up to NUL. Contents that encode no text are found in the order of the
elements.
-/

namespace Ragged

/-! ## Up to NUL -/

namespace Utf8

theorem Encodes.eq_zero {bytes : List UInt8} {n : Nat} (h : Encodes bytes n) (hzero : 0 ∈ bytes) : n = 0 := by
  have hbyte : ∀ {a : UInt8}, 0 = a → a.toNat = 0 := by
    rintro a rfl
    rfl
  cases h with
  | one ha => exact hbyte (List.mem_singleton.mp hzero)
  | two ha hb =>
    have := tail?_eq_some hb
    simp only [List.mem_cons, List.not_mem_nil, or_false] at hzero
    rcases hzero with h | h <;> have := hbyte h <;> omega
  | three ha hb hc =>
    have := tail?_eq_some (tailOfThree?_eq_some hb).2.2
    have := tail?_eq_some hc
    simp only [List.mem_cons, List.not_mem_nil, or_false] at hzero
    rcases hzero with h | h | h <;> have := hbyte h <;> omega
  | four ha hb hc hd =>
    have := tail?_eq_some (tailOfFour?_eq_some hb).2.2
    have := tail?_eq_some hc
    have := tail?_eq_some hd
    simp only [List.mem_cons, List.not_mem_nil, or_false] at hzero
    rcases hzero with h | h | h | h <;> have := hbyte h <;> omega

theorem zero_mem_encodeChar {c : Char} : 0 ∈ String.utf8EncodeChar c ↔ c = '\x00' := by
  constructor
  · intro h
    rw [← Char.ofNat_toNat c, (encodes_encodeChar c).eq_zero h]
  · rintro rfl
    exact List.mem_singleton.mpr rfl

end Utf8

def upToNul (s : String) : String := String.ofList (s.toList.takeWhile (· ≠ '\x00'))

theorem trimAtNul_encode (s : String) : trimAtNul (Utf8.encode s) = Utf8.encode (upToNul s) := by
  unfold trimAtNul Utf8.encode upToNul
  rw [String.toList_ofList]
  induction s.toList with
  | nil => rfl
  | cons c cs ih =>
    rw [List.flatMap_cons]
    by_cases hc : c = '\x00'
    · subst hc
      rfl
    · have hbytes : ∀ b ∈ String.utf8EncodeChar c, decide (b ≠ 0) = true := by
        intro b hb
        rw [decide_eq_true_eq]
        rintro rfl
        exact hc (Utf8.zero_mem_encodeChar.mp hb)
      have hhead : decide (c ≠ '\x00') = true := decide_eq_true hc
      rw [List.takeWhile_append_of_pos hbytes, ih, List.takeWhile_cons, if_pos hhead, List.flatMap_cons]

theorem trimAtNul_idem (content : List UInt8) : trimAtNul (trimAtNul content) = trimAtNul content :=
  List.takeWhile_idem

/-- The longest part from the start of a text on that has no NUL. -/
structure IsUpToNul (text part : String) : Prop where
  starts : part.toList <+: text.toList
  clean : '\x00' ∉ part.toList
  longest : ∀ cs, cs <+: text.toList → '\x00' ∉ cs → cs <+: part.toList

theorem isUpToNul (text : String) : IsUpToNul text (upToNul text) := by
  have hchars : (upToNul text).toList = text.toList.takeWhile (· ≠ '\x00') := String.toList_ofList
  refine ⟨?_, ?_, ?_⟩
  · rw [hchars]
    exact List.takeWhile_prefix _
  · rw [hchars]
    intro hmem
    have hne := List.mem_takeWhile_imp hmem
    exact of_decide_eq_true hne rfl
  · rintro cs ⟨rest, hrest⟩ hclean
    have hall : ∀ c ∈ cs, decide (c ≠ '\x00') = true := fun c hc => decide_eq_true fun h => hclean (h ▸ hc)
    rw [hchars, ← hrest, List.takeWhile_append_of_pos hall]
    exact List.prefix_append _ _

/-! ## Decoding contents -/

def undecodable (s : Shape) (flat : Nat) (content : List UInt8) (fault : Utf8.Fault) : Error :=
  .invalidArgument s!"{Codec.locate s flat} is not valid UTF-8: {fault.message} in {Utf8.preview content}"

theorem decodeTexts_encode (s : Shape) (flat : Nat) (texts : List String) :
    decodeTexts s flat (texts.map Utf8.encode) = .ok texts := by
  induction texts generalizing flat with
  | nil => rfl
  | cons text texts ih =>
    rw [List.map_cons, decodeTexts, Utf8.decode_encode]
    dsimp only
    rw [ih, Outcome.ok_bind, Outcome.pure_eq]

theorem decodeTexts_cases (s : Shape) (flat : Nat) (contents : List (List UInt8)) :
    (∃ texts : List String, contents = texts.map Utf8.encode ∧ decodeTexts s flat contents = .ok texts) ∨
      ∃ i content fault, contents[i]? = some content ∧ Utf8.decode content = .error fault ∧
        (∀ before ∈ contents.take i, ∃ text, before = Utf8.encode text) ∧
        decodeTexts s flat contents = .fail (undecodable s (flat + i) content fault) := by
  induction contents generalizing flat with
  | nil => exact .inl ⟨[], rfl, rfl⟩
  | cons content contents ih =>
    rw [decodeTexts]
    cases hdecode : Utf8.decode content with
    | error fault => exact .inr ⟨0, content, fault, rfl, hdecode, nofun, rfl⟩
    | ok text =>
      have hcontent := Utf8.decode_eq_ok.mp hdecode
      rcases ih (flat + 1) with ⟨texts, hall, hrest⟩ | ⟨i, later, fault, hi, hfault, hbefore, hrest⟩
      · exact .inl ⟨text :: texts, by rw [List.map_cons, ← hall, ← hcontent], by rw [hrest]; rfl⟩
      · refine .inr ⟨i + 1, later, fault, hi, hfault, ?_, ?_⟩
        · rw [List.take_succ_cons, List.forall_mem_cons]
          exact ⟨⟨text, hcontent⟩, hbefore⟩
        · rw [hrest, show flat + (i + 1) = flat + 1 + i by omega]
          rfl

/-! ## Arrays of texts -/

section
variable {d : Dataset Pointer} (hd : d.store.Sound)
include hd

theorem answer_of_forPointers {α : Type} [Inhabited α] {budget : Nat} (hb : budget < 2 ^ 64)
    {value : Nat → Pointer → Outcome α} {answers : List α} (h : forPointers budget d.view value = .ok answers) {i : Nat}
    {p : Pointer} (hp : d.listed[i]? = some p) : ∃ a, value i p = .ok a := by
  obtain ⟨cs, hlt, hnumbers, -, hvisits⟩ := forEachPointer_eq hd hb
  have hi := (List.getElem?_eq_some_iff.mp hp).1
  rw [Dataset.length_listed hd] at hi
  obtain ⟨c, hc, rfl⟩ := List.mem_map.mp (hnumbers.mem_iff.mpr (List.mem_range.mpr hi))
  rw [d.getElem?_listed (hlt c hc)] at hp
  obtain rfl := Option.some.inj hp
  simp only [forPointers, hvisits] at h
  obtain ⟨u, hok, -⟩ := Outcome.bind_eq_ok.mp h
  obtain ⟨slots, slots', hvisit⟩ := (Action.visits_of_forEach (Prod.ext hok rfl)).of_mem hc
  cases hvalue : value (dot (Shape.stridesOf d.shape.dims) c) (d.store.value c) with
  | ok a => exact ⟨a, rfl⟩
  | fail e =>
    rw [hvalue] at hvisit
    cases hvisit
  | trap =>
    rw [hvalue] at hvisit
    cases hvisit

theorem forPointers_of_ok {α : Type} [Inhabited α] {budget : Nat} (hb : budget < 2 ^ 64)
    {value : Nat → Pointer → Outcome α} {answers : List α} (h : forPointers budget d.view value = .ok answers) :
    answers.length = d.size ∧ ∀ i p a, d.listed[i]? = some p → answers[i]? = some a → value i p = .ok a := by
  have hlength : (d.listed.mapIdx fun i p => (value i p).value?.getD default).length = d.size := by
    rw [List.length_mapIdx, Dataset.length_listed hd]
  have hvalue : ∀ i p a, d.listed[i]? = some p →
      (d.listed.mapIdx fun i p => (value i p).value?.getD default)[i]? = some a → value i p = .ok a := by
    intro i p a hp ha
    obtain ⟨b, hb⟩ := answer_of_forPointers hd hb h hp
    rw [List.getElem?_mapIdx, hp, Option.map_some, hb] at ha
    rw [hb, ← Option.some.inj ha]
    rfl
  have hlist : forPointers budget d.view value = .ok (d.listed.mapIdx fun i p => (value i p).value?.getD default) :=
    forPointers_eq_ok hd hb hlength fun c a hc ha => hvalue _ _ a (d.getElem?_listed hc) ha
  obtain rfl := Outcome.ok.inj (hlist.symm.trans h)
  exact ⟨hlength, hvalue⟩

omit hd in
theorem resolve_trimmed {o : ReadOptions} (ho : o.trim = .keep) {s : Shape} {heap : HeapReader} {flat : Nat}
    {p : Pointer} {content : List UInt8} (h : resolve o s heap flat p = .ok content) (r : ReadOptions) :
    resolve r s heap flat p = .ok (r.trim.apply content) := by
  obtain ⟨whole, hread, hcontent⟩ := Outcome.bind_eq_ok.mp h
  rw [ho] at hcontent
  obtain rfl : whole = content := Outcome.ok.inj hcontent
  rw [resolve, hread]
  rfl

/-- If an array can be read, it can be read with any options, and these matter only for how contents are trimmed. -/
theorem readArray_trimmed {heap : View UInt8} {o : ReadOptions} (ho : o.trim = .keep) {contents : List (List UInt8)}
    (h : readArray o d.view heap = .ok contents) (r : ReadOptions) :
    readArray r d.view heap = .ok (contents.map r.trim.apply) ∧ contents.length = d.size := by
  obtain ⟨hcount, hresolve⟩ := forPointers_of_ok hd (UInt64.toNat_lt o.elementBudget) h
  refine ⟨forPointers_eq_ok hd (UInt64.toNat_lt r.elementBudget) (by rw [List.length_map, hcount]) ?_, hcount⟩
  intro c a hc ha
  rw [List.getElem?_map] at ha
  obtain ⟨content, hcontent, rfl⟩ := Option.map_eq_some_iff.mp ha
  exact resolve_trimmed ho (hresolve _ _ _ (d.getElem?_listed hc) hcontent) r

theorem undecodable_eq {i : Nat} (hi : i < d.size) (content : List UInt8) (fault : Utf8.Fault) :
    ∃ c, d.shape.unravel i = .ok c ∧
      let place := s!"flat index {i} at coordinate {Text.coordinate c}"
      undecodable d.shape i content fault =
        .invalidArgument s!"{place} is not valid UTF-8: {fault.message} in {Utf8.preview content}" := by
  obtain ⟨c, hc, hplace⟩ := Codec.locate_of_lt (s := d.shape) hd.shape_eq hi
  refine ⟨c, hc, ?_⟩
  rw [undecodable, hplace]

end

/-- Texts come back as they were written, whatever the layouts and the options are, and if contents are trimmed each
text comes back up to its first NUL. Whatever contents an array has, to trim them at NUL is to trim what is read
without, and they are read as texts if all of them encode one, trimmed or not. If not, the first element that does not
is blamed. -/
theorem texts_survive :
    (∀ (d : Dataset Pointer) (heap : Dataset UInt8) (texts : List String) (o : WriteOptions), d.Reached → heap.Reached →
      heap.store.extensible = true → texts.length = d.size →
      heap.size + ((texts.map Utf8.encode).map List.length).sum < 2 ^ 64 →
      ∃ d' heap', writeElements Sink.dataset o (texts.map Utf8.encode) (d, heap) = (.ok (), d', heap') ∧
        ∀ r : ReadOptions,
          (r.trim = .keep → readStrings r d'.view heap'.view = .ok texts) ∧
          (r.trim = .nul → readStrings r d'.view heap'.view = .ok (texts.map upToNul) ∧
            ∀ text ∈ texts, IsUpToNul text (upToNul text))) ∧
    ∀ (d : Dataset Pointer) (heap : View UInt8) (contents : List (List UInt8)) (o : ReadOptions), d.Reached →
      o.trim = .keep → readArray o d.view heap = .ok contents →
      (∀ r : ReadOptions, r.trim = .nul →
        readArray r d.view heap = .ok (contents.map trimAtNul) ∧
        (contents.map trimAtNul).map trimAtNul = contents.map trimAtNul) ∧
      ∀ r : ReadOptions,
        let shown := contents.map r.trim.apply
        ((∃ texts, readStrings r d.view heap = .ok texts) ↔ ∀ content ∈ shown, ∃ text, content = Utf8.encode text) ∧
        (∀ texts, readStrings r d.view heap = .ok texts → shown = texts.map Utf8.encode) ∧
        ((¬ ∃ texts, readStrings r d.view heap = .ok texts) →
          ∃ (i : Nat) (c : List Nat) (content : List UInt8) (fault : Utf8.Fault),
          shown[i]? = some content ∧ (¬ ∃ text, content = Utf8.encode text) ∧
          (∀ before ∈ shown.take i, ∃ text, before = Utf8.encode text) ∧
          Utf8.decode content = .error fault ∧ d.shape.unravel i = .ok c ∧
          let place := s!"flat index {i} at coordinate {Text.coordinate c}"
          readStrings r d.view heap =
            .fail (.invalidArgument s!"{place} is not valid UTF-8: {fault.message} in {Utf8.preview content}")) := by
  constructor
  · intro d heap texts o hd hh he hcount hlen
    rw [← List.length_flatten] at hlen
    obtain ⟨chunks, heap', hwrite, hsound, hgrows, -, hnames⟩ := writeElements_eq_ok hd.sound ⟨hh.sound, he⟩ o
      ((List.length_map _).trans hcount) hlen
    refine ⟨{ d with store := { d.store with chunks } }, heap', hwrite, fun r => ?_⟩
    have hdescribes : Describes { d with store := { d.store with chunks } } heap'.elements (texts.map Utf8.encode) :=
      ⟨hsound, (List.length_map _).trans hcount, hnames⟩
    obtain ⟨hread, -⟩ := readArray_trimmed hsound rfl (hdescribes.readArray hgrows (o := {}) rfl) r
    constructor
    · intro hr
      rw [readStrings, hread, Outcome.ok_bind, hr, show Trim.keep.apply = id from rfl, List.map_id]
      exact decodeTexts_encode _ _ _
    · intro hr
      have hparts : (texts.map Utf8.encode).map trimAtNul = (texts.map upToNul).map Utf8.encode := by
        rw [List.map_map, List.map_map]
        apply List.map_congr_left
        intro text _
        rw [Function.comp_apply, trimAtNul_encode, Function.comp_apply]
      refine ⟨?_, fun text _ => isUpToNul text⟩
      rw [readStrings, hread, Outcome.ok_bind, hr, show Trim.nul.apply = trimAtNul from rfl, hparts]
      exact decodeTexts_encode _ _ _
  · intro d heap contents o hd ho hkeep
    refine ⟨fun r hr => ⟨?_, ?_⟩, fun r => ?_⟩
    · rw [(readArray_trimmed hd.sound ho hkeep r).1, hr]
      rfl
    · rw [List.map_map]
      exact List.map_congr_left fun content _ => trimAtNul_idem content
    · intro shown
      obtain ⟨hread, hcount⟩ := readArray_trimmed hd.sound ho hkeep r
      have hstrings : readStrings r d.view heap = decodeTexts d.shape 0 shown := by
        rw [readStrings, hread, Outcome.ok_bind]
        rfl
      rw [hstrings]
      rcases decodeTexts_cases d.shape 0 shown with ⟨texts, hall, hok⟩ | ⟨i, content, fault, hi, hfault, hbefore, hfail⟩
      · rw [hok]
        refine ⟨iff_of_true ⟨texts, rfl⟩ ?_, ?_, fun h => absurd ⟨texts, rfl⟩ h⟩
        · rw [hall, List.forall_mem_map]
          exact fun text _ => ⟨text, rfl⟩
        · intro texts' heq
          rw [← Outcome.ok.inj heq, hall]
      · have hbad : ¬ ∃ text, content = Utf8.encode text := by
          rintro ⟨text, rfl⟩
          rw [Utf8.decode_encode] at hfault
          cases hfault
        have hlt : i < d.size := by
          rw [← hcount, ← List.length_map r.trim.apply]
          exact (List.getElem?_eq_some_iff.mp hi).1
        obtain ⟨c, hc, herror⟩ := undecodable_eq hd.sound hlt content fault
        rw [hfail, Nat.zero_add, herror]
        refine ⟨iff_of_false nofun fun h => hbad (h content (List.mem_of_getElem? hi)), nofun, fun _ => ?_⟩
        exact ⟨i, c, content, fault, hi, hbad, hbefore, hfault, hc, rfl⟩

/-- Texts with characters of one to three bytes, and contents of which one is a text only up to NUL and one is none. -/
theorem texts_survive_trimmed :
    (∃ d d' heap heap', Dataset.New d ∧ Dataset.New heap ∧ d.store.chunkShape = [3, 1] ∧
      writeElements Sink.dataset { flushThreshold := 2 } (["né\x00x", "", "\x00", "日本"].map Utf8.encode) (d, heap) =
        (.ok (), d', heap') ∧
      readStrings {} d'.view heap'.view = .ok ["né\x00x", "", "\x00", "日本"] ∧
      readStrings { elementBudget := 0, trim := .nul } d'.view heap'.view = .ok ["né", "", "", "日本"]) ∧
    ∃ (d : Dataset Pointer) (heap : Dataset UInt8), d.Reached ∧ heap.Reached ∧
      readArray {} d.view heap.view = .ok [[65, 0, 255], [255]] ∧
      readArray { trim := .nul } d.view heap.view = .ok [[65], [255]] ∧
      (¬ ∃ texts, readStrings {} d.view heap.view = .ok texts) ∧
      let place := "flat index 1 at coordinate (1)"
      let fault : Utf8.Fault := ⟨0, some 1⟩
      readStrings { trim := .nul } d.view heap.view =
        .fail (.invalidArgument s!"{place} is not valid UTF-8: {fault.message} in {Utf8.preview [255]}") := by
  obtain ⟨hwritten, hread⟩ := texts_survive
  have hshape : DatasetConfig.shape ⟨[2, 2], [3, 1], 1, false⟩ = .ok (Shape.rowMajor [2, 2]) := by decide
  have hlayout : DatasetConfig.layout ⟨[2, 2], [3, 1], 1, false⟩ =
      .ok (.chunked [3, 1] [.shuffle, .deflate 1]) := by decide
  have hd : Dataset.New (α := Pointer)
      ⟨[], ⟨Shape.rowMajor [2, 2], .chunked [3, 1] [.shuffle, .deflate 1], false, [3, 1], 3, []⟩⟩ :=
    .fixed hshape hlayout rfl
  have hheap : Dataset.New (α := UInt8) ⟨[], ⟨Shape.rowMajor [0], .chunked [4] [], true, [4], 4, []⟩⟩ :=
    .uncompressed [] (show (4 : UInt64) ≠ 0 by decide)
  constructor
  · obtain ⟨d', heap', hwrite, hstrings⟩ := hwritten _ _ ["né\x00x", "", "\x00", "日本"] { flushThreshold := 2 }
      hd.reached hheap.reached rfl rfl (by decide)
    refine ⟨_, d', _, heap', hd, hheap, rfl, hwrite, (hstrings _).1 rfl, ?_⟩
    rw [((hstrings _).2 rfl).1]
    decide
  · have hline : Dataset.New (α := Pointer) ⟨[], ⟨Shape.rowMajor [2], .contiguous, false, [2], 2, []⟩⟩ :=
      .fixed (show DatasetConfig.shape ⟨[2], [], 0, false⟩ = .ok (Shape.rowMajor [2]) from rfl) rfl rfl
    obtain ⟨d, heap, hpointers, hbytes, hcontents, hplace⟩ : ∃ (d : Dataset Pointer) (heap : Dataset UInt8), d.Reached ∧
        heap.Reached ∧ readArray {} d.view heap.view = .ok [[65, 0, 255], [255]] ∧ d.shape.unravel 1 = .ok [1] :=
      ⟨_, _, hline.reached.perform (.write ⟨[0], [2], 2⟩ [⟨0, 3⟩, ⟨2, 1⟩]) ⟨rfl, .inl rfl⟩,
        hheap.reached.perform (.append ([65, 0, 255] : List UInt8)) trivial, by decide, by decide⟩
    obtain ⟨htrimmed, hstrings⟩ := hread d heap.view _ {} hpointers rfl hcontents
    have hwhole : Utf8.decode [65, 0, 255] = .error ⟨2, some 1⟩ := by decide
    have hlast : Utf8.decode [255] = .error ⟨0, some 1⟩ := by decide
    refine ⟨d, heap, hpointers, hbytes, hcontents, (htrimmed { trim := .nul } rfl).1, ?_, ?_⟩
    · intro hok
      obtain ⟨text, htext⟩ := (hstrings {}).1.mp hok [65, 0, 255] List.mem_cons_self
      rw [htext, Utf8.decode_encode] at hwhole
      cases hwhole
    · have hnone : ¬ ∃ text, [255] = Utf8.encode text := by
        rintro ⟨text, htext⟩
        rw [htext, Utf8.decode_encode] at hlast
        cases hlast
      obtain ⟨hiff, -, hblamed⟩ := hstrings { trim := .nul }
      have hfails := fun hok => hnone (hiff.mp hok [255] (List.mem_cons_of_mem _ List.mem_cons_self))
      obtain ⟨i, c, content, fault, hi, hbad, -, hfault, hc, hfail⟩ := hblamed hfails
      obtain _ | _ | i := i
      · obtain rfl : [65] = content := Option.some.inj hi
        exact absurd ⟨"A", by decide⟩ hbad
      · obtain rfl : [255] = content := Option.some.inj hi
        obtain rfl : ⟨0, some 1⟩ = fault := Except.error.inj (hlast.symm.trans hfault)
        obtain rfl : [1] = c := Outcome.ok.inj (hplace.symm.trans hc)
        rw [hfail]
        decide
      · cases hi

end Ragged

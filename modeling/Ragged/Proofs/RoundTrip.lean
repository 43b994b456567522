import Ragged.Proofs.Resolving

/-!
# What was written is read back

A pointer that names a content is followed to it. So the contents of an array come back in the order of the elements,
and each of them at its coordinate, whatever was chosen for writing and for reading.
-/

namespace Ragged

theorem Pointer.Names.contentIn {heap content : List UInt8} {p : Pointer} (h : p.Names heap content) :
    p.offset.toNat + p.length.toNat ≤ heap.length ∧ p.contentIn heap = content := by
  rw [Pointer.contentIn, h.length]
  exact ⟨h.inside, h.content⟩

theorem HeapReader.read_eq_ok {heap : Dataset UInt8} (hh : heap.Grows) {p : Pointer} {content : List UInt8}
    (h : p.Names heap.elements content) : (HeapReader.ofView heap.view).read p = .ok content := by
  obtain ⟨hin, hcontent⟩ := h.contentIn
  rw [heap.length_elements] at hin
  rw [read_eq hh.linear, if_pos hin, hcontent]

theorem resolve_eq_ok {o : ReadOptions} (ho : o.trim = .keep) {heap : Dataset UInt8} (hh : heap.Grows)
    {p : Pointer} {content : List UInt8} (h : p.Names heap.elements content) (s : Shape) (flat : Nat) :
    resolve o s (HeapReader.ofView heap.view) flat p = .ok content := by
  rw [resolve, HeapReader.read_eq_ok hh h, ho]
  rfl

theorem readElement_eq_ok {o : ReadOptions} (ho : o.trim = .keep) {d : Dataset Pointer} (hd : d.store.Sound)
    {heap : Dataset UInt8} (hh : heap.Grows) {c : List Nat} (hc : List.Forall₂ (· < ·) c d.shape.dims)
    {content : List UInt8} (h : (d.store.value c).Names heap.elements content) :
    d.shape.flatIndex c = .ok (dot (Shape.stridesOf d.shape.dims) c) ∧
      readElement o d.view heap.view c = .ok content := by
  refine ⟨(Shape.flatIndex_of_sound hd hc).1, ?_⟩
  rw [readElement_eq o hd heap.view hc, resolve_eq_ok ho hh h]

/-- An array that is written to datasets of any layout can be read as a whole and element by element. -/
theorem written_contents_read {d : Dataset Pointer} (hd : d.Reached) {heap : Dataset UInt8} (hh : heap.Reached)
    (he : heap.store.extensible = true) {contents : List (List UInt8)} (hcount : contents.length = d.size)
    (hlen : heap.size + (contents.map List.length).sum < 2 ^ 64) (o : WriteOptions) :
    ∃ d' heap', writeElements Sink.dataset o contents (d, heap) = (.ok (), d', heap') ∧ d'.shape = d.shape ∧
      heap'.elements = heap.elements ++ contents.flatten ∧
      ∀ r : ReadOptions, r.trim = .keep →
        readArray r d'.view heap'.view = .ok contents ∧
        ∀ c, d.shape.contains c = true → ∃ flat content, d.shape.flatIndex c = .ok flat ∧
          contents[flat]? = some content ∧ readElement r d'.view heap'.view c = .ok content := by
  rw [← List.length_flatten] at hlen
  obtain ⟨chunks, heap', hwrite, hsound, hgrows, helements, hnames⟩ :=
    writeElements_eq_ok hd.sound ⟨hh.sound, he⟩ o hcount hlen
  refine ⟨_, heap', hwrite, rfl, helements, ?_⟩
  intro r hr
  constructor
  · apply forPointers_eq_ok (d := { d with store := { d.store with chunks } }) hsound
      (UInt64.toNat_lt r.elementBudget) hcount
    intro c content hc hi
    exact resolve_eq_ok hr hgrows (hnames c content hc hi) _ _
  · intro c hc
    have hlt := Shape.contains_iff.mp hc
    have hsize : d.size = d.shape.dims.prod := hd.sound.size_eq
    have hn := Shape.dot_lt_prod hlt
    obtain ⟨content, hi⟩ : ∃ content, contents[dot (Shape.stridesOf d.shape.dims) c]? = some content :=
      ⟨_, List.getElem?_eq_getElem (by omega)⟩
    obtain ⟨hflat, hread⟩ := readElement_eq_ok hr (d := { d with store := { d.store with chunks } }) hsound hgrows
      hlt (hnames c content hlt hi)
    exact ⟨_, content, hflat, hi, hread⟩

theorem written_contents_read_two_by_two :
    ∃ (d d' : Dataset Pointer) (heap heap' : Dataset UInt8), d.New ∧ heap.New ∧
      d.store.chunkShape = [3, 1] ∧ heap.store.chunkShape = [4] ∧
      writeElements Sink.dataset { elementBudget := 0, flushThreshold := 2 } [[1, 2], [], [3], [4, 5, 6]] (d, heap) =
        (.ok (), d', heap') ∧
      readArray { elementBudget := 3 } d'.view heap'.view = .ok [[1, 2], [], [3], [4, 5, 6]] ∧
      readElement { elementBudget := 3 } d'.view heap'.view [1, 1] = .ok [4, 5, 6] := by
  have hshape : DatasetConfig.shape ⟨[2, 2], [3, 1], 1, false⟩ = .ok (Shape.rowMajor [2, 2]) := by decide
  have hlayout : DatasetConfig.layout ⟨[2, 2], [3, 1], 1, false⟩ =
      .ok (.chunked [3, 1] [.shuffle, .deflate 1]) := by decide
  have hd : Dataset.New (α := Pointer)
      ⟨[], ⟨Shape.rowMajor [2, 2], .chunked [3, 1] [.shuffle, .deflate 1], false, [3, 1], 3, []⟩⟩ :=
    .fixed hshape hlayout rfl
  have hheap : Dataset.New (α := UInt8) ⟨[], ⟨Shape.rowMajor [0], .chunked [4] [], true, [4], 4, []⟩⟩ :=
    .uncompressed [] (show (4 : UInt64) ≠ 0 by decide)
  have hlen : 0 + (([[1, 2], [], [3], [4, 5, 6]] : List (List UInt8)).map List.length).sum < 2 ^ 64 := by decide
  obtain ⟨d', heap', hwrite, -, -, hread⟩ := written_contents_read hd.reached hheap.reached rfl
    (show ([[1, 2], [], [3], [4, 5, 6]] : List (List UInt8)).length = 4 by rfl) hlen
    { elementBudget := 0, flushThreshold := 2 }
  obtain ⟨harray, helement⟩ := hread { elementBudget := 3 } rfl
  obtain ⟨flat, content, hflat, hcontent, hresult⟩ := helement [1, 1] (by decide)
  obtain rfl : 3 = flat := Outcome.ok.inj hflat
  obtain rfl := Option.some.inj hcontent
  exact ⟨_, d', _, heap', hd, hheap, rfl, rfl, hwrite, harray, hresult⟩

end Ragged

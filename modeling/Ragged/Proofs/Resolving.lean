import Ragged.Proofs.Growing
import Ragged.Proofs.Listing
import Ragged.Proofs.Reading

/-!
# Pointers of any content

Nothing is assumed about the pointers of an array here: they may lead out of the heap, and their ends may be no words.
A pointer is followed if its bytes lie in the heap, and else refused. An array is read if all its pointers can be
followed; if not, the first on the walk that leads out is blamed, and its element alone fails in the same way.
-/

namespace Ragged

namespace Pointer

def contentIn (p : Pointer) (heap : List UInt8) : List UInt8 := (heap.drop p.offset.toNat).take p.length.toNat

/-- The first of the numbers listed in `order` whose pointer leads out of a heap of the given size. -/
def firstOutside (ps : List Pointer) (size : Nat) (order : List Nat) : Option Nat :=
  order.find? fun i => ps[i]?.any fun p => size < p.offset.toNat + p.length.toNat

theorem firstOutside_eq_some {ps : List Pointer} {size f : Nat} {order : List Nat}
    (h : firstOutside ps size order = some f) :
    ∃ p, ps[f]? = some p ∧ size < p.offset.toNat + p.length.toNat := by
  have hbad := List.find?_some h
  cases hp : ps[f]? with
  | none =>
    rw [hp] at hbad
    exact absurd hbad Bool.false_ne_true
  | some p =>
    simp only [hp, Option.any_some, decide_eq_true_eq] at hbad
    exact ⟨p, rfl, hbad⟩

theorem firstOutside_eq_none {ps : List Pointer} {size : Nat} {order : List Nat}
    (horder : order.Perm (List.range ps.length)) (h : firstOutside ps size order = none) :
    ∀ p ∈ ps, p.offset.toNat + p.length.toNat ≤ size := by
  intro p hp
  obtain ⟨i, hi⟩ := List.getElem?_of_mem hp
  have hmem := horder.mem_iff.mpr (List.mem_range.mpr (List.getElem?_eq_some_iff.mp hi).1)
  have hgood := List.find?_eq_none.mp h i hmem
  simp only [hi, Option.any_some, decide_eq_true_eq] at hgood
  exact Nat.le_of_not_lt hgood

end Pointer

theorem HeapReader.read_of_fetch {r : HeapReader} (hs : r.size < 2 ^ 64) {bytes : List UInt8}
    (hfetch : ∀ start count, start + count ≤ r.size →
      r.fetch (Slab.range start count) = .ok ((bytes.drop start).take count)) (p : Pointer) :
    r.read p =
      if p.offset.toNat + p.length.toNat ≤ r.size then .ok (p.contentIn bytes) else .fail (p.outside r.size) := by
  rw [read, p.checkWithin_eq hs]
  by_cases hin : p.offset.toNat + p.length.toNat ≤ r.size
  · rw [if_pos hin, if_pos hin, Outcome.ok_bind]
    dsimp only
    by_cases hlt : p.offset.toNat < p.offset.toNat + p.length.toNat
    · rw [if_pos hlt]
      exact hfetch _ _ hin
    · rw [if_neg hlt, Pointer.contentIn, show p.length.toNat = 0 by omega, List.take_zero]
      rfl
  · rw [if_neg hin, if_neg hin, Outcome.fail_bind]

theorem HeapReader.read_eq {heap : Dataset UInt8} (hh : heap.Linear) (p : Pointer) :
    (HeapReader.ofView heap.view).read p =
      if p.offset.toNat + p.length.toNat ≤ heap.size then .ok (p.contentIn heap.elements)
      else .fail (p.outside heap.size) :=
  read_of_fetch hh.size_lt (fun _ _ => hh.read_range) p

theorem resolve_eq (o : ReadOptions) {heap : Dataset UInt8} (hh : heap.Linear) (s : Shape) (flat : Nat)
    (p : Pointer) :
    resolve o s (HeapReader.ofView heap.view) flat p =
      if p.offset.toNat + p.length.toNat ≤ heap.size then .ok (o.trim.apply (p.contentIn heap.elements))
      else .fail (.context (Codec.locate s flat) (p.outside heap.size)) := by
  rw [resolve, HeapReader.read_eq hh]
  by_cases hin : p.offset.toNat + p.length.toNat ≤ heap.size
  · rw [if_pos hin, if_pos hin]
    rfl
  · rw [if_neg hin, if_neg hin]
    rfl

theorem Slab.coords_element (c : List Nat) : (Slab.element c).coords = [c] := by
  induction c with
  | nil => rfl
  | cons i c ih =>
    simp only [Slab.coords, Slab.element] at ih ⊢
    rw [List.length_cons, List.replicate_succ, Slab.coordsOf, ih]
    rfl

theorem Shape.flatIndex_of_sound {α : Type} {d : Dataset α} (hd : d.store.Sound) {c : List Nat}
    (hc : List.Forall₂ (· < ·) c d.shape.dims) :
    d.shape.flatIndex c = .ok (dot (Shape.stridesOf d.shape.dims) c) ∧
      d.shape.unravel (dot (Shape.stridesOf d.shape.dims) c) = .ok c := by
  have hshape : d.shape = Shape.rowMajor d.shape.dims := hd.shape_eq
  have hflat := Shape.flatIndex_eq_ok hd.prod_lt hc
  have hunravel := Shape.unravel_eq_ok hc
  rw [show Shape.rowMajor d.store.shape.dims = d.shape from hshape.symm] at hflat
  rw [← hshape] at hunravel
  exact ⟨hflat, hunravel⟩

theorem readElement_eq (o : ReadOptions) {d : Dataset Pointer} (hd : d.store.Sound) (heap : View UInt8)
    {c : List Nat} (hc : List.Forall₂ (· < ·) c d.shape.dims) :
    readElement o d.view heap c =
      resolve o d.shape (HeapReader.ofView heap) (dot (Shape.stridesOf d.shape.dims) c) (d.store.value c) := by
  have hprod : d.shape.dims.prod < 2 ^ 64 := hd.prod_lt
  have hextents := Shape.extent_lt (Odometer.ne_zero_of_lt hc) hprod
  have hread : d.view.read (Slab.element c) = .ok [d.store.value c] := by
    have := Dataset.read_block hd (Slab.element_block hextents hc)
    rwa [Slab.coords_element] at this
  have hview : d.view.shape = d.shape := rfl
  rw [readElement, hview, (Shape.flatIndex_of_sound hd hc).1, Outcome.ok_bind, hread, Outcome.ok_bind]

/-! ## Arrays and their elements -/

section
variable (o : ReadOptions) {d : Dataset Pointer} (hd : d.store.Sound) {heap : Dataset UInt8} (hh : heap.Linear)
include hd

theorem readElement_of_listed (heap : View UInt8) {i : Nat} {p : Pointer} (hi : d.listed[i]? = some p) :
    ∃ c, d.shape.unravel i = .ok c ∧
      readElement o d.view heap c = resolve o d.shape (HeapReader.ofView heap) i p := by
  obtain ⟨c, hc, rfl, rfl⟩ := Dataset.exists_coord_of_listed hd hi
  exact ⟨c, (Shape.flatIndex_of_sound hd hc).2, readElement_eq o hd heap hc⟩

include hh

theorem readArray_eq_firstOutside :
    ∃ order, walkOrder o.elementBudget.toNat d.view = .ok order ∧ order.Perm (List.range d.size) ∧
      readArray o d.view heap.view =
        match Pointer.firstOutside d.listed heap.size order with
        | none => .ok (d.listed.map fun p => o.trim.apply (p.contentIn heap.elements))
        | some f => .fail (.context (Codec.locate d.shape f) ((d.listed[f]?.getD default).outside heap.size)) := by
  have hwalk := forPointers_eq_find hd (UInt64.toNat_lt o.elementBudget)
    (resolve o d.view.shape (HeapReader.ofView heap.view))
    (fun i => d.listed[i]?.any fun p => heap.size < p.offset.toNat + p.length.toNat)
    (fun i => .context (Codec.locate d.shape i) ((d.listed[i]?.getD default).outside heap.size))
    (fun i => o.trim.apply ((d.listed[i]?.getD default).contentIn heap.elements)) ?_
  · obtain ⟨order, horder, hperm, hread⟩ := hwalk
    have hlist : (List.range d.size).map
          (fun i => o.trim.apply ((d.listed[i]?.getD default).contentIn heap.elements)) =
        d.listed.map fun p => o.trim.apply (p.contentIn heap.elements) := by
      rw [← Dataset.length_listed hd]
      apply List.ext_getElem
      · rw [List.length_map, List.length_map, List.length_range]
      · intro i _ hi
        rw [List.length_map] at hi
        simp [hi]
    rw [hlist] at hread
    exact ⟨order, horder, hperm, hread⟩
  · intro c hc
    rw [show d.view.shape = d.shape from rfl, resolve_eq o hh, d.getElem?_listed hc]
    simp only [Option.any_some, Option.getD_some, decide_eq_true_eq]
    by_cases hin : (d.store.value c).offset.toNat + (d.store.value c).length.toNat ≤ heap.size
    · rw [if_pos hin, if_neg (Nat.not_lt.mpr hin)]
    · rw [if_neg hin, if_pos (Nat.lt_of_not_le hin)]

end

/-- Whatever pointers an array holds, it is read exactly if all of them stay inside the heap; then every element is
the trimmed part of the heap that its pointer names. If not, the element that comes first on the walk over the blocks
among those whose pointers lead out is blamed, and it alone is refused with the same error. The other elements can
still be read one by one. -/
theorem arbitrary_pointers_resolved {d : Dataset Pointer} (hd : d.Reached) {heap : Dataset UInt8} (hh : heap.Reached)
    (hrank : heap.shape.rank = 1) (o : ReadOptions) :
    ∃ (ps : List Pointer) (bytes : List UInt8) (order : List Nat),
      d.read (Slab.whole d.shape) = .ok ps ∧ ps.length = d.size ∧
      heap.read (Slab.whole heap.shape) = .ok bytes ∧ bytes.length = heap.size ∧
      walkOrder o.elementBudget.toNat d.view = .ok order ∧ order.Perm (List.range d.size) ∧
      ((∃ contents, readArray o d.view heap.view = .ok contents) ↔
        ∀ p ∈ ps, p.offset.toNat + p.length.toNat ≤ heap.size) ∧
      (∀ contents, readArray o d.view heap.view = .ok contents → contents.length = d.size ∧
        ∀ i p, ps[i]? = some p → ∃ c content, d.shape.unravel i = .ok c ∧ contents[i]? = some content ∧
          content = o.trim.apply ((bytes.drop p.offset.toNat).take p.length.toNat) ∧
          readElement o d.view heap.view c = .ok content) ∧
      ((¬ ∃ contents, readArray o d.view heap.view = .ok contents) → ∃ f p c e,
        Pointer.firstOutside ps heap.size order = some f ∧ ps[f]? = some p ∧ d.shape.unravel f = .ok c ∧
        Codec.locate d.shape f = s!"flat index {f} at coordinate {Text.coordinate c}" ∧
        e = .context (Codec.locate d.shape f)
          (.corruption s!"pointer {p.render} out of range of the heap of {heap.size} bytes") ∧
        readArray o d.view heap.view = .fail e ∧ readElement o d.view heap.view c = .fail e) ∧
      ∀ c, d.shape.contains c = true → ∃ i p, d.shape.flatIndex c = .ok i ∧ ps[i]? = some p ∧
        (p.offset.toNat + p.length.toNat ≤ heap.size → readElement o d.view heap.view c =
          .ok (o.trim.apply ((bytes.drop p.offset.toNat).take p.length.toNat))) := by
  have hl : heap.Linear := .of_rank hh.sound hrank
  have hlen := Dataset.length_listed hd.sound
  obtain ⟨order, horder, hperm, hread⟩ := readArray_eq_firstOutside o hd.sound hl
  refine ⟨d.listed, heap.elements, order, Dataset.read_whole hd.sound hd.extent_lt, hlen, hl.read_whole,
    heap.length_elements, horder, hperm, ?_⟩
  have hlast : ∀ c, d.shape.contains c = true → ∃ i p, d.shape.flatIndex c = .ok i ∧ d.listed[i]? = some p ∧
      (p.offset.toNat + p.length.toNat ≤ heap.size → readElement o d.view heap.view c =
        .ok (o.trim.apply (p.contentIn heap.elements))) := by
    intro c hc
    have hlt := Shape.contains_iff.mp hc
    refine ⟨_, _, (Shape.flatIndex_of_sound hd.sound hlt).1, d.getElem?_listed hlt, ?_⟩
    intro hp
    rw [readElement_eq o hd.sound heap.view hlt, resolve_eq o hl, if_pos hp]
  cases hfirst : Pointer.firstOutside d.listed heap.size order with
  | none =>
    rw [hfirst] at hread
    have hall := Pointer.firstOutside_eq_none (hlen ▸ hperm) hfirst
    refine ⟨⟨fun _ => hall, fun _ => ⟨_, hread⟩⟩, ?_, fun h => absurd ⟨_, hread⟩ h, hlast⟩
    intro contents hcontents
    obtain rfl := Outcome.ok.inj (hread.symm.trans hcontents)
    refine ⟨by rw [List.length_map, hlen], ?_⟩
    intro i p hi
    obtain ⟨c, hc, helement⟩ := readElement_of_listed o hd.sound heap.view hi
    refine ⟨c, _, hc, by rw [List.getElem?_map, hi]; rfl, rfl, ?_⟩
    rw [helement, resolve_eq o hl, if_pos (hall p (List.mem_of_getElem? hi))]
    rfl
  | some f =>
    obtain ⟨p, hp, hout⟩ := Pointer.firstOutside_eq_some hfirst
    simp only [hfirst, hp, Option.getD_some] at hread
    have hfails : ¬ ∃ contents, readArray o d.view heap.view = .ok contents := by
      rintro ⟨contents, hok⟩
      rw [hread] at hok
      nomatch hok
    obtain ⟨c, hc, helement⟩ := readElement_of_listed o hd.sound heap.view hp
    rw [resolve_eq o hl, if_neg (Nat.not_le.mpr hout)] at helement
    refine ⟨⟨fun h => absurd h hfails, fun hall => ?_⟩, fun contents hok => absurd ⟨contents, hok⟩ hfails,
      fun _ => ⟨f, p, c, _, rfl, hp, hc, Codec.locate_eq hc, rfl, hread, helement⟩, hlast⟩
    exact absurd (hall p (List.mem_of_getElem? hp)) (Nat.not_le.mpr hout)

theorem arbitrary_pointers_resolved_by_columns :
    ∃ (d : Dataset Pointer) (heap : Dataset UInt8), d.Reached ∧ heap.Reached ∧
      d.read (Slab.whole d.shape) = .ok [⟨1, 1⟩, ⟨18446744073709551615, 2⟩, ⟨3, 0⟩, ⟨0, 2⟩] ∧
      heap.read (Slab.whole heap.shape) = .ok [7, 8] ∧
      walkOrder 0 d.view = .ok [0, 2, 1, 3] ∧
      readArray { elementBudget := 0 } d.view heap.view =
        .fail (.context "flat index 2 at coordinate (1, 0)" (Pointer.outside ⟨3, 0⟩ 2)) ∧
      readElement { elementBudget := 0 } d.view heap.view [1, 0] =
        .fail (.context "flat index 2 at coordinate (1, 0)" (Pointer.outside ⟨3, 0⟩ 2)) ∧
      readElement { elementBudget := 0 } d.view heap.view [1, 1] = .ok [7, 8] := by
  have hshape : DatasetConfig.shape ⟨[2, 2], [2, 1], 1, false⟩ = .ok (Shape.rowMajor [2, 2]) := by decide
  have hlayout : DatasetConfig.layout ⟨[2, 2], [2, 1], 1, false⟩ =
      .ok (.chunked [2, 1] [.shuffle, .deflate 1]) := by decide
  have hnew : Dataset.New (α := Pointer)
      ⟨[], ⟨Shape.rowMajor [2, 2], .chunked [2, 1] [.shuffle, .deflate 1], false, [2, 1], 2, []⟩⟩ :=
    .fixed hshape hlayout rfl
  have hd := hnew.reached.perform
    (.write ⟨[0, 0], [2, 2], 4⟩ [⟨1, 1⟩, ⟨18446744073709551615, 2⟩, ⟨3, 0⟩, ⟨0, 2⟩]) ⟨rfl, .inl rfl⟩
  have hheap := (Dataset.New.uncompressed [] (show (4 : UInt64) ≠ 0 by decide)).reached.perform
    (.append ([7, 8] : List UInt8)) trivial
  obtain ⟨ps, bytes, order, hps, -, hbytes, -, horder, -, hiff, -, hfail, helement⟩ :=
    arbitrary_pointers_resolved hd hheap rfl { elementBudget := 0 }
  obtain rfl : [⟨1, 1⟩, ⟨18446744073709551615, 2⟩, ⟨3, 0⟩, ⟨0, 2⟩] = ps := Outcome.ok.inj (.trans (by decide) hps)
  obtain rfl : [7, 8] = bytes := Outcome.ok.inj (.trans (by decide) hbytes)
  obtain rfl : [0, 2, 1, 3] = order := Outcome.ok.inj (.trans (by decide) horder)
  obtain ⟨f, p, c, e, hf, hp, hc, hplace, rfl, harray, hsame⟩ := hfail fun h => absurd (hiff.mp h) (by decide)
  obtain rfl : 2 = f := Option.some.inj (.trans (by decide) hf)
  obtain rfl := Option.some.inj hp
  obtain rfl : [1, 0] = c := Outcome.ok.inj (.trans (by decide) hc)
  obtain ⟨i, p, hi, hp, hread⟩ := helement [1, 1] (by decide)
  obtain rfl : 3 = i := Outcome.ok.inj (.trans (by decide) hi)
  obtain rfl := Option.some.inj hp
  have htext : s!"flat index {2} at coordinate {Text.coordinate [1, 0]}" = "flat index 2 at coordinate (1, 0)" := by
    decide
  rw [hplace, htext] at harray hsame
  exact ⟨_, _, hd, hheap, hps, hbytes, horder, harray, hsame, hread (by decide)⟩

end Ragged

import Ragged.Proofs.Listing
import Ragged.Proofs.Writing

/-!
# The stored form

What a call stores is determined by the contents and by what the heap held: the contents lie back to back after it,
and the pointers, in the order of the elements, follow them. The chunks of the two datasets, the budget and the
portions leave no trace.
-/

namespace Ragged

def Pointer.allBackToBack (start : Nat) (contents : List (List UInt8)) : List Pointer :=
  (List.range contents.length).map (backToBack start contents)

theorem Pointer.length_allBackToBack (start : Nat) (contents : List (List UInt8)) :
    (allBackToBack start contents).length = contents.length := by
  rw [allBackToBack, List.length_map, List.length_range]

theorem Pointer.getElem?_allBackToBack (start : Nat) {contents : List (List UInt8)} {i : Nat} {content : List UInt8}
    (hi : contents[i]? = some content) : (allBackToBack start contents)[i]? = some (backToBack start contents i) := by
  rw [allBackToBack, List.getElem?_map, List.getElem?_range (List.getElem?_eq_some_iff.mp hi).1]
  rfl

theorem ArrayEnded.listed {d d' : Dataset Pointer} {before after : List UInt8} {contents : List (List UInt8)}
    {x : Outcome Unit} (h : ArrayEnded d before contents x d' after) (hx : x = .ok ()) :
    after = before ++ contents.flatten ∧ d'.listed = Pointer.allBackToBack before.length contents := by
  cases h with
  | part hfail => exact absurd hx hfail
  | @all chunks hcount hlen hsound hvalue =>
    have hprod : contents.length = d.shape.dims.prod := hcount.trans (hsound.size_eq)
    have hgrid : (Odometer.grid d.shape.dims).map (Store.value { d.store with chunks }) =
        (Odometer.grid d.shape.dims).map fun c =>
          Pointer.backToBack before.length contents (dot (Shape.stridesOf d.shape.dims) c) := by
      apply List.map_congr_left
      intro c hc
      exact hvalue c (Odometer.mem_grid.mp hc)
    refine ⟨rfl, hgrid.trans ?_⟩
    rw [Pointer.allBackToBack, hprod, ← Shape.map_dot_grid, List.map_map]
    rfl

section
variable {d : Dataset Pointer} (hd : d.Reached) {heap : Dataset UInt8} (hh : heap.Reached)
  (he : heap.store.extensible = true) (o : WriteOptions) {contents : List (List UInt8)}
include hd hh he

theorem writeElements_ok_iff (hcount : contents.length = d.size) :
    (writeElements Sink.dataset o contents (d, heap)).1 = .ok () ↔ heap.size + contents.flatten.length < 2 ^ 64 := by
  obtain ⟨-, hended⟩ := writeElements_ended Sink.dataset_over hd.sound (s := heap) ⟨hh.sound, he⟩ o contents
  constructor
  · intro hx
    rw [← heap.length_elements]
    exact hended.length_lt hx
  · intro hlen
    obtain ⟨chunks, heap', hwrite, -⟩ := writeElements_eq_ok hd.sound ⟨hh.sound, he⟩ o hcount hlen
    rw [hwrite]

theorem writeElements_stored (hx : (writeElements Sink.dataset o contents (d, heap)).1 = .ok ()) :
    let r := writeElements Sink.dataset o contents (d, heap)
    r.2.2.read (Slab.whole r.2.2.shape) = .ok (heap.elements ++ contents.flatten) ∧
      r.2.1.read (Slab.whole r.2.1.shape) = .ok (Pointer.allBackToBack heap.size contents) := by
  intro r
  obtain ⟨hgrows, hended⟩ := writeElements_ended Sink.dataset_over hd.sound (s := heap) ⟨hh.sound, he⟩ o contents
  obtain ⟨hsound, hshape⟩ := hended.keeps hd.sound
  obtain ⟨helements, hlisted⟩ := hended.listed hx
  have hgrows' : r.2.2.Grows := hgrows
  have helements' : r.2.2.elements = heap.elements ++ contents.flatten := helements
  have hlisted' : r.2.1.listed = Pointer.allBackToBack heap.elements.length contents := hlisted
  rw [← helements', ← heap.length_elements, ← hlisted']
  refine ⟨hgrows'.linear.read_whole, Dataset.read_whole hsound ?_⟩
  rw [hshape]
  exact hd.extent_lt

end

/-- An array can be written if the size of the heap stays a word. The heap then holds what it held, followed by the
contents, and every pointer gives the place of its content there. Another call that finds the same bytes and extents
stores the same, whatever its options, the layouts and the pointers that were there. -/
theorem stored_back_to_back {d : Dataset Pointer} (hd : d.Reached) {heap : Dataset UInt8} (hh : heap.Reached)
    (he : heap.store.extensible = true) (o : WriteOptions) {contents : List (List UInt8)}
    (hcount : contents.length = d.size) :
    let r := writeElements Sink.dataset o contents (d, heap)
    (r.1 = .ok () ↔ heap.size + (contents.map List.length).sum < 2 ^ 64) ∧
    (r.1 = .ok () → ∃ before pointers, heap.read (Slab.whole heap.shape) = .ok before ∧
      r.2.2.read (Slab.whole r.2.2.shape) = .ok (before ++ contents.flatten) ∧
      r.2.1.read (Slab.whole r.2.1.shape) = .ok pointers ∧ pointers.length = contents.length ∧
      ∀ (i : Nat) content, contents[i]? = some content → ∃ p, pointers[i]? = some p ∧
        p.offset.toNat = before.length + ((contents.take i).map List.length).sum ∧
        p.length.toNat = content.length) ∧
    ∀ (d' : Dataset Pointer) (heap' : Dataset UInt8) (o' : WriteOptions), d'.Reached → heap'.Reached →
      heap'.store.extensible = true → d'.shape.dims = d.shape.dims →
      heap'.read (Slab.whole heap'.shape) = heap.read (Slab.whole heap.shape) →
      let r' := writeElements Sink.dataset o' contents (d', heap')
      (r'.1 = .ok () ↔ r.1 = .ok ()) ∧
      (r.1 = .ok () → r'.2.2.read (Slab.whole r'.2.2.shape) = r.2.2.read (Slab.whole r.2.2.shape) ∧
        r'.2.1.read (Slab.whole r'.2.1.shape) = r.2.1.read (Slab.whole r.2.1.shape)) := by
  intro r
  have hlinear : heap.Linear := Dataset.Grows.linear ⟨hh.sound, he⟩
  have hiff : r.1 = .ok () ↔ _ := writeElements_ok_iff hd hh he o hcount
  refine ⟨?_, ?_, ?_⟩
  · rw [← List.length_flatten]
    exact hiff
  · intro hx
    obtain ⟨hbytes, hpointers⟩ := writeElements_stored hd hh he o hx
    refine ⟨_, _, hlinear.read_whole, hbytes, hpointers, Pointer.length_allBackToBack .., ?_⟩
    intro i content hi
    obtain ⟨hoffset, hlength⟩ := Pointer.toNat_backToBack (hiff.mp hx) hi
    rw [heap.length_elements, ← List.length_flatten]
    exact ⟨_, Pointer.getElem?_allBackToBack _ hi, hoffset, hlength⟩
  · intro d' heap' o' hd' hh' he' hdims hheap r'
    have hlinear' : heap'.Linear := Dataset.Grows.linear ⟨hh'.sound, he'⟩
    have hsame : heap'.elements = heap.elements :=
      Outcome.ok.inj (hlinear'.read_whole.symm.trans (hheap.trans hlinear.read_whole))
    have hsize : heap'.size = heap.size := by rw [← heap'.length_elements, hsame, heap.length_elements]
    have hcount' : contents.length = d'.size := by
      rw [hcount]
      show d.store.shape.size = d'.store.shape.size
      rw [hd.sound.size_eq, hd'.sound.size_eq]
      exact congrArg List.prod hdims.symm
    have hiff' : r'.1 = .ok () ↔ _ := writeElements_ok_iff hd' hh' he' o' hcount'
    rw [hsize, ← hiff] at hiff'
    refine ⟨hiff', ?_⟩
    intro hx
    obtain ⟨hbytes, hpointers⟩ := writeElements_stored hd hh he o hx
    obtain ⟨hbytes', hpointers'⟩ := writeElements_stored hd' hh' he' o' (hiff'.mpr hx)
    rw [hsame] at hbytes'
    rw [hsize] at hpointers'
    exact ⟨hbytes'.trans hbytes.symm, hpointers'.trans hpointers.symm⟩

theorem stored_back_to_back_two_by_two :
    ∃ (d d' : Dataset Pointer) (heap heap' : Dataset UInt8), d.Reached ∧ d'.Reached ∧ heap.Reached ∧ heap'.Reached ∧
      d.store.chunkShape = [2, 1] ∧ d'.store.chunkShape = [1, 2] ∧
      heap.store.chunkShape = [4] ∧ heap'.store.chunkShape = [3] ∧
      let r := writeElements Sink.dataset { elementBudget := 0, flushThreshold := 2 } [[1, 2], [], [3], [4, 5, 6]]
        (d, heap)
      let r' := writeElements Sink.dataset {} [[1, 2], [], [3], [4, 5, 6]] (d', heap')
      r.1 = .ok () ∧ r.2.2.read (Slab.whole r.2.2.shape) = .ok [9, 1, 2, 3, 4, 5, 6] ∧
      r.2.1.read (Slab.whole r.2.1.shape) = .ok [⟨1, 2⟩, ⟨3, 0⟩, ⟨3, 1⟩, ⟨4, 3⟩] ∧ r'.1 = .ok () ∧
      r'.2.2.read (Slab.whole r'.2.2.shape) = r.2.2.read (Slab.whole r.2.2.shape) ∧
      r'.2.1.read (Slab.whole r'.2.1.shape) = r.2.1.read (Slab.whole r.2.1.shape) := by
  have hshape : DatasetConfig.shape ⟨[2, 2], [2, 1], 1, false⟩ = .ok (Shape.rowMajor [2, 2]) := by decide
  have hlayout : DatasetConfig.layout ⟨[2, 2], [2, 1], 1, false⟩ =
      .ok (.chunked [2, 1] [.shuffle, .deflate 1]) := by decide
  have hshape' : DatasetConfig.shape ⟨[2, 2], [1, 2], 1, false⟩ = .ok (Shape.rowMajor [2, 2]) := by decide
  have hlayout' : DatasetConfig.layout ⟨[2, 2], [1, 2], 1, false⟩ =
      .ok (.chunked [1, 2] [.shuffle, .deflate 1]) := by decide
  have hd : Dataset.New (α := Pointer)
      ⟨[], ⟨Shape.rowMajor [2, 2], .chunked [2, 1] [.shuffle, .deflate 1], false, [2, 1], 2, []⟩⟩ :=
    .fixed hshape hlayout rfl
  have hd' : Dataset.New (α := Pointer)
      ⟨[], ⟨Shape.rowMajor [2, 2], .chunked [1, 2] [.shuffle, .deflate 1], false, [1, 2], 2, []⟩⟩ :=
    .fixed hshape' hlayout' rfl
  have hheap := (Dataset.New.uncompressed [] (show (4 : UInt64) ≠ 0 by decide)).reached.perform
    (.append ([9] : List UInt8)) trivial
  have hheap' := (Dataset.New.uncompressed [] (show (3 : UInt64) ≠ 0 by decide)).reached.perform
    (.append ([9] : List UInt8)) trivial
  obtain ⟨hiff, -, hagain⟩ := stored_back_to_back hd.reached hheap rfl { elementBudget := 0, flushThreshold := 2 }
    (show ([[1, 2], [], [3], [4, 5, 6]] : List (List UInt8)).length = 4 from rfl)
  have hok := hiff.mpr (by decide)
  obtain ⟨hiff', hsame⟩ := hagain _ _ {} hd'.reached hheap' rfl rfl (by decide)
  obtain ⟨hbytes, hpointers⟩ := hsame hok
  exact ⟨_, _, _, _, hd.reached, hd'.reached, hheap, hheap', rfl, rfl, rfl, rfl, hok, by decide +kernel,
    by decide +kernel, hiff'.mpr hok, hbytes, hpointers⟩

end Ragged

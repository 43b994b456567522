import Ragged.Proofs.Blocks
import Ragged.Proofs.Offsets
import Ragged.Writing

/-!
# Writing arrays

The pointers of a span name its contents in the heap. Written block by block, they end up at the coordinates of
their elements, whatever the chunks of the dataset and the budget are.
-/

namespace Ragged

structure Pointer.Names (heap : List UInt8) (p : Pointer) (content : List UInt8) : Prop where
  length : p.length.toNat = content.length
  inside : p.offset.toNat + content.length ≤ heap.length
  content : (heap.drop p.offset.toNat).take content.length = content

namespace Codec

def pointerOf (offsets lengths : List UInt64) (i : Nat) : Pointer := ⟨offsets[i]?.getD 0, lengths[i]?.getD 0⟩

theorem pointerAt_eq_ok {s : Shape} {offsets lengths : List UInt64} {i : Nat} (ho : i < offsets.length)
    (hl : i < lengths.length) : pointerAt s offsets lengths i = .ok (pointerOf offsets lengths i) := by
  simp only [pointerAt, pointerOf, List.getElem?_eq_getElem ho, List.getElem?_eq_getElem hl, Option.getD_some]

end Codec

/-- The pointer of the content with number `i`, for contents that lie back to back from `start` on. -/
def Pointer.backToBack (start : Nat) (contents : List (List UInt8)) (i : Nat) : Pointer :=
  ⟨UInt64.ofNat (start + (contents.take i).flatten.length), UInt64.ofNat (contents[i]?.getD []).length⟩

theorem Pointer.offsetsFrom_eq_ok {contents : List (List UInt8)} {start : Nat}
    (h : start + contents.flatten.length < 2 ^ 64) :
    ∃ offsets, offsetsFrom (UInt64.ofNat start) (byteLengths contents) = .ok offsets ∧
      offsets.length = contents.length ∧
      ∀ i, i < contents.length → Codec.pointerOf offsets (byteLengths contents) i = backToBack start contents i := by
  have hstart : (UInt64.ofNat start).toNat = start := toNat_ofNat_of_lt (by omega)
  obtain ⟨offsets, hok⟩ := (exists_offsetsFrom_iff (UInt64.ofNat start) (byteLengths contents)).mpr
    (by rw [hstart, sum_byteLengths (by omega)]; exact h)
  refine ⟨offsets, hok, by rw [length_offsetsFrom hok, length_byteLengths], ?_⟩
  intro i hi
  have hlength : (byteLengths contents)[i]? = some (UInt64.ofNat contents[i].length) := by simp [byteLengths, hi]
  obtain ⟨offset, hoffset, hsum⟩ := getElem?_offsetsFrom hok hlength
  have hbefore : (contents.take i).flatten.length ≤ contents.flatten.length :=
    (List.take_sublist i contents).flatten.length_le
  rw [hstart, byteLengths, ← List.map_take, ← byteLengths, sum_byteLengths (by omega)] at hsum
  have hoffset' : offset = UInt64.ofNat (start + (contents.take i).flatten.length) :=
    UInt64.toNat_inj.mp (by rw [hsum, toNat_ofNat_of_lt (by omega)])
  rw [Codec.pointerOf, backToBack, hoffset, hlength, List.getElem?_eq_getElem hi, hoffset']
  rfl

theorem flatten_split {contents : List (List UInt8)} {i : Nat} {content : List UInt8}
    (hi : contents[i]? = some content) :
    contents.flatten = (contents.take i).flatten ++ (content ++ (contents.drop (i + 1)).flatten) := by
  obtain ⟨hlt, hget⟩ := List.getElem?_eq_some_iff.mp hi
  conv_lhs => rw [← List.take_append_drop i contents, List.drop_eq_getElem_cons hlt, hget]
  rw [List.flatten_append, List.flatten_cons]

theorem Pointer.toNat_backToBack {start i : Nat} {contents : List (List UInt8)} {content : List UInt8}
    (h : start + contents.flatten.length < 2 ^ 64) (hi : contents[i]? = some content) :
    (backToBack start contents i).offset.toNat = start + (contents.take i).flatten.length ∧
      (backToBack start contents i).length.toNat = content.length := by
  rw [flatten_split hi, List.length_append, List.length_append] at h
  constructor
  · exact toNat_ofNat_of_lt (by omega)
  · rw [backToBack, hi]
    exact toNat_ofNat_of_lt (show content.length < 2 ^ 64 by omega)

theorem Pointer.backToBack_names {before : List UInt8} {contents : List (List UInt8)} {i : Nat}
    {content : List UInt8} (h : before.length + contents.flatten.length < 2 ^ 64) (hi : contents[i]? = some content) :
    (backToBack before.length contents i).Names (before ++ contents.flatten) content := by
  obtain ⟨hoffset, hlength⟩ := toNat_backToBack h hi
  rw [← List.length_append] at hoffset
  rw [flatten_split hi, ← List.append_assoc]
  refine ⟨hlength, ?_, ?_⟩
  · simp only [hoffset, List.length_append]
    omega
  · rw [hoffset, List.drop_left, List.take_left]

namespace Dataset

variable {α : Type} [Inhabited α]

theorem write_block {d : Dataset α} (hd : d.store.Sound) {slab : Slab} (hb : slab.Block d.store.shape.dims)
    (g : List Nat → α) :
    ∃ chunks, write slab (slab.coords.map g) d = (.ok (), { d with store := { d.store with chunks } }) ∧
      Store.Sound { d.store with chunks } ∧
      ∀ c, c.length = d.store.chunkShape.length →
        Store.value { d.store with chunks } c = if c ∈ slab.coords then g c else d.store.value c := by
  have hcells := hb.cells_eq
  have hlen : slab.size = (slab.coords.map g).length := by rw [List.length_map, hb.length_coords]
  obtain ⟨chunks, hw, hsound, hvalue⟩ := hd.writeWithin_eq_ok hd.rank.symm hb.sized (hb.checkWithin rfl) hlen
  refine ⟨chunks, ?_, hsound, ?_⟩
  · simp only [write, Action.step, Store.write, hw]
    rfl
  · intro c hc
    rw [hvalue c hc, hcells]
    by_cases hm : c ∈ slab.coords
    · rw [lookup_zip_map_self hm, if_pos hm]
      rfl
    · rw [lookup_zip_eq_none hm, if_neg hm]
      rfl

/-- Blocks written one after the other. Where they meet they agree. -/
theorem forEach_write_block (g : List Nat → α) {f : Slab → Outcome (List α)} {dims : List Nat} {slabs : List Slab}
    {d : Dataset α} (hd : d.store.Sound) (hdims : d.store.shape.dims = dims)
    (hslabs : ∀ slab ∈ slabs, slab.Block dims ∧ f slab = .ok (slab.coords.map g)) :
    ∃ chunks, Action.forEach (fun slab => do write slab (← f slab)) slabs d =
        (.ok (), { d with store := { d.store with chunks } }) ∧
      Store.Sound { d.store with chunks } ∧
      ∀ c, c.length = d.store.chunkShape.length →
        Store.value { d.store with chunks } c =
          if c ∈ slabs.flatMap Slab.coords then g c else d.store.value c := by
  induction slabs generalizing d with
  | nil =>
    refine ⟨d.store.chunks, rfl, hd, ?_⟩
    intro c _
    exact (if_neg List.not_mem_nil).symm
  | cons slab slabs ih =>
    rw [List.forall_mem_cons] at hslabs
    obtain ⟨⟨hblock, hencode⟩, hslabs⟩ := hslabs
    obtain ⟨chunks, hw, hsound, hvalue⟩ := write_block hd (hdims ▸ hblock) g
    obtain ⟨chunks', hws, hsound', hvalue'⟩ := @ih { d with store := { d.store with chunks } } hsound hdims hslabs
    refine ⟨chunks', ?_, hsound', ?_⟩
    · rw [Action.forEach, hencode, Action.lift_ok_bind, Action.bind_apply, hw]
      exact hws
    · intro c hc
      rw [hvalue' c hc, hvalue c hc, List.flatMap_cons]
      by_cases hm : c ∈ slabs.flatMap Slab.coords
      · rw [if_pos hm, if_pos (List.mem_append_right _ hm)]
      · rw [if_neg hm]
        simp only [List.mem_append, hm, or_false]

end Dataset

theorem mem_blocks {dims : List Nat} {slabs : List Slab} (h : (slabs.flatMap Slab.coords).Perm (Odometer.grid dims))
    {c : List Nat} (hc : List.Forall₂ (· < ·) c dims) : c ∈ slabs.flatMap Slab.coords :=
  h.mem_iff.mpr (Odometer.mem_grid.mpr hc)

theorem Store.Sound.chunked {α : Type} {s : Store α} (h : s.Sound) :
    Plan.Chunked s.layout.chunk? s.shape.dims := by
  intro chunk hc
  rw [h.layout chunk hc]
  exact ⟨h.rank, h.positive⟩

theorem writePointers_of_planned {d : Dataset Pointer} {o : WriteOptions} {t : Tiling} {slabs : List Slab}
    (ht : Tiling.planned d.shape.dims d.layout.chunk? o.elementBudget.toNat = .ok t) (hlist : t.toList = .ok slabs)
    (span : HeapSpan) :
    writePointers o span d = (do
      checkElementCount d.shape span.lengths.length
      let offsets ← span.offsets
      Action.forEach (fun slab => do
        let ps ← Codec.encodeSlab d.shape slab offsets span.lengths
        Dataset.write slab ps) slabs : Action (Dataset Pointer) Unit) d := by
  unfold writePointers
  rw [Action.bind_of_ok (x := d) rfl]
  simp only [ht, hlist, Action.lift_ok_bind]
  rfl

theorem writePointers_eq_ok {d : Dataset Pointer} (hd : d.store.Sound) (o : WriteOptions) {span : HeapSpan}
    {offsets : List UInt64} (hspan : span.offsets = .ok offsets) (ho : offsets.length = d.size)
    (hl : span.lengths.length = d.size) :
    ∃ chunks, writePointers o span d = (.ok (), { d with store := { d.store with chunks } }) ∧
      Store.Sound { d.store with chunks } ∧
      ∀ c, List.Forall₂ (· < ·) c d.shape.dims → Store.value { d.store with chunks } c =
        Codec.pointerOf offsets span.lengths (dot (Shape.stridesOf d.shape.dims) c) := by
  have hshape : d.shape = Shape.rowMajor d.shape.dims := hd.shape_eq
  have hprod : d.shape.dims.prod < 2 ^ 64 := hd.prod_lt
  have hsize : d.size = d.shape.dims.prod := hd.size_eq
  obtain ⟨t, slabs, hplanned, hlist, hblocks, hperm⟩ := Tiling.planned_blocks hd.shape hd.chunked
    (UInt64.toNat_lt o.elementBudget)
  have hencode : ∀ slab ∈ slabs, Codec.encodeSlab d.shape slab offsets span.lengths = .ok (slab.coords.map fun c =>
      Codec.pointerOf offsets span.lengths (dot (Shape.stridesOf d.shape.dims) c)) := by
    intro slab hs
    have := Codec.encodeSlab_eq_ok hprod (hblocks slab hs) (ho.trans hsize) (hl.trans hsize)
      fun i hi => Codec.pointerAt_eq_ok (by omega) (by omega)
    rwa [← hshape] at this
  obtain ⟨chunks, hw, hsound, hvalue⟩ := Dataset.forEach_write_block _ hd rfl
    fun slab hs => ⟨hblocks slab hs, hencode slab hs⟩
  refine ⟨chunks, ?_, hsound, ?_⟩
  · have hcount : checkElementCount d.shape span.lengths.length = .ok () := Codec.checkCount_eq_ok _ hl
    have hplan : Tiling.planned d.shape.dims d.layout.chunk? o.elementBudget.toNat = .ok t := hplanned
    rw [writePointers_of_planned hplan hlist, hcount, hspan, Action.lift_ok_bind, Action.lift_ok_bind]
    exact hw
  · intro c hc
    rw [hvalue c (hc.length_eq.trans hd.rank.symm), if_pos (mem_blocks hperm hc)]

theorem writeElements_of_count {σ : Type} {S : Sink σ} {d : Dataset Pointer} (s : σ) (o : WriteOptions)
    {contents : List (List UInt8)} (hcount : contents.length = d.size) :
    writeElements S o contents (d, s) =
      match HeapWriter.write S o.flushThreshold.toNat contents s with
      | (.ok span, s') => ((writePointers o span d).1, (writePointers o span d).2, s')
      | (.fail e, s') => (.fail e, d, s')
      | (.trap, s') => (.trap, d, s') := by
  have hcheck : checkElementCount d.shape contents.length = .ok () := Codec.checkCount_eq_ok _ hcount
  unfold writeElements
  rw [Action.bind_of_ok (x := (d, s)) rfl]
  dsimp only
  rw [hcheck, Action.lift_ok_bind, Action.bind_apply,
    show (Action.view Outcome.ok (d, s)).2 = (d, s) from rfl]
  simp only [Action.zoom]
  rcases HeapWriter.write S o.flushThreshold.toNat contents s with ⟨x, s'⟩
  cases x with
  | ok span => rfl
  | fail e => rfl
  | trap => rfl

theorem writeElements_of_miscount {σ : Type} {S : Sink σ} {d : Dataset Pointer} (s : σ) (o : WriteOptions)
    {contents : List (List UInt8)} (hcount : contents.length ≠ d.size) :
    ∃ e, writeElements S o contents (d, s) = (.fail e, d, s) := by
  have hcheck : checkElementCount d.shape contents.length = .fail _ := if_neg hcount
  unfold writeElements
  rw [Action.bind_of_ok (x := (d, s)) rfl]
  dsimp only
  rw [hcheck]
  exact ⟨_, rfl⟩

/-- Where the contents came to lie back to back in the heap, the pointers follow, each at the coordinate of its
element. -/
theorem writeElements_of_write {σ : Type} {S : Sink σ} {d : Dataset Pointer} (hd : d.store.Sound) {s s' : σ}
    (o : WriteOptions) {contents : List (List UInt8)} (hcount : contents.length = d.size) {start : Nat}
    (hlen : start + contents.flatten.length < 2 ^ 64)
    (hwrite : HeapWriter.write S o.flushThreshold.toNat contents s =
      (.ok ⟨UInt64.ofNat start, byteLengths contents⟩, s')) :
    ∃ chunks, writeElements S o contents (d, s) = (.ok (), { d with store := { d.store with chunks } }, s') ∧
      Store.Sound { d.store with chunks } ∧
      ∀ c, List.Forall₂ (· < ·) c d.shape.dims → Store.value { d.store with chunks } c =
        Pointer.backToBack start contents (dot (Shape.stridesOf d.shape.dims) c) := by
  obtain ⟨offsets, hoffsets, ho, hpointer⟩ := Pointer.offsetsFrom_eq_ok hlen
  have hspan : HeapSpan.offsets ⟨UInt64.ofNat start, byteLengths contents⟩ = .ok offsets := hoffsets
  obtain ⟨chunks, hpointers, hsound, hvalue⟩ := writePointers_eq_ok hd o hspan (ho.trans hcount)
    ((length_byteLengths contents).trans hcount)
  refine ⟨chunks, ?_, hsound, ?_⟩
  · rw [writeElements_of_count s o hcount, hwrite]
    dsimp only
    rw [hpointers]
  · intro c hc
    have hsize : d.size = d.shape.dims.prod := hd.size_eq
    rw [hvalue c hc, hpointer _ (by rw [hcount, hsize]; exact Shape.dot_lt_prod hc)]

/-- How the writing of an array to a dataset ends, and what a heap then holds. The dataset changes only if all
contents are in the heap. -/
inductive ArrayEnded (d : Dataset Pointer) (before : List UInt8) (contents : List (List UInt8)) :
    Outcome Unit → Dataset Pointer → List UInt8 → Prop
  | all {chunks : List (List Nat × Array Pointer)} (hcount : contents.length = d.size)
      (hlen : before.length + contents.flatten.length < 2 ^ 64) (hsound : Store.Sound { d.store with chunks })
      (hvalue : ∀ c, List.Forall₂ (· < ·) c d.shape.dims → Store.value { d.store with chunks } c =
        Pointer.backToBack before.length contents (dot (Shape.stridesOf d.shape.dims) c)) :
      ArrayEnded d before contents (.ok ()) { d with store := { d.store with chunks } } (before ++ contents.flatten)
  | part {x : Outcome Unit} {p : List UInt8} (hx : x ≠ .ok ())
      (htrap : x = .trap → 2 ^ 64 ≤ before.length + contents.flatten.length) (hp : p <+: contents.flatten) :
      ArrayEnded d before contents x d (before ++ p)

namespace ArrayEnded

variable {d d' : Dataset Pointer} {before after : List UInt8} {contents : List (List UInt8)} {x : Outcome Unit}

theorem of_ne_ok (h : ArrayEnded d before contents x d' after) (hx : x ≠ .ok ()) : d' = d := by
  cases h with
  | all => exact absurd rfl hx
  | part => rfl

theorem ne_trap (h : ArrayEnded d before contents x d' after)
    (hlen : before.length + contents.flatten.length < 2 ^ 64) : x ≠ .trap := by
  cases h with
  | all => nofun
  | part hx htrap => exact fun h => absurd hlen (Nat.not_lt.mpr (htrap h))

theorem length_lt (h : ArrayEnded d before contents x d' after) (hx : x = .ok ()) :
    before.length + contents.flatten.length < 2 ^ 64 := by
  cases h with
  | all hcount hlen => exact hlen
  | part hfail => exact absurd hx hfail

theorem grown (h : ArrayEnded d before contents x d' after) :
    ∃ added, added <+: contents.flatten ∧ after = before ++ added ∧ (x = .ok () → added = contents.flatten) := by
  cases h with
  | all => exact ⟨_, List.prefix_rfl, rfl, fun _ => rfl⟩
  | part hx htrap hp => exact ⟨_, hp, rfl, fun h => absurd h hx⟩

theorem path (h : ArrayEnded d before contents x d' after) : d'.path = d.path := by
  cases h <;> rfl

theorem keeps (h : ArrayEnded d before contents x d' after) (hd : d.store.Sound) :
    d'.store.Sound ∧ d'.shape = d.shape := by
  cases h with
  | all hcount hlen hsound => exact ⟨hsound, rfl⟩
  | part => exact ⟨hd, rfl⟩

end ArrayEnded

theorem writeElements_ended {σ : Type} {S : Sink σ} {heap : σ → Dataset UInt8} (hS : S.Over heap)
    {d : Dataset Pointer} (hd : d.store.Sound) {s : σ} (hs : (heap s).Grows) (o : WriteOptions)
    (contents : List (List UInt8)) :
    let r := writeElements S o contents (d, s)
    (heap r.2.2).Grows ∧ ArrayEnded d (heap s).elements contents r.1 r.2.1 (heap r.2.2).elements := by
  intro r
  by_cases hcount : contents.length = d.size
  · obtain ⟨hgrows, p, hended, hp⟩ := HeapWriter.write_holds hS.holds o.flushThreshold.toNat contents hs
      (by rw [Dataset.length_elements]; exact hs.size_lt) trivial
    rcases hw : HeapWriter.write S o.flushThreshold.toNat contents s with ⟨x, s'⟩
    rw [hw] at hgrows hended hp
    have hr : r = _ := writeElements_of_count s o hcount
    rw [hw] at hr
    cases hended with
    | all =>
      -- The heap that took everything in is a dataset, so its size is a word and the offsets are words, too.
      have hlen := hgrows.size_lt
      rw [← Dataset.length_elements, hp, List.length_append] at hlen
      obtain ⟨chunks, hall, hsound, hvalue⟩ := writeElements_of_write hd o hcount hlen hw
      rw [show r = _ from hall]
      exact ⟨hgrows, hp ▸ .all hcount hlen hsound hvalue⟩
    | part he hpre =>
      rw [hr]
      exact ⟨hgrows, hp ▸ .part nofun nofun hpre⟩
    | overflow htotal hpre =>
      rw [hr]
      exact ⟨hgrows, hp ▸ .part nofun (fun _ => htotal) hpre⟩
  · obtain ⟨e, hr⟩ := writeElements_of_miscount s o hcount
    rw [show r = _ from hr]
    refine ⟨hs, ?_⟩
    have hnone : ArrayEnded d (heap s).elements contents (.fail e) d ((heap s).elements ++ []) :=
      .part nofun nofun List.nil_prefix
    rwa [List.append_nil] at hnone

theorem writeElements_eq_ok {d : Dataset Pointer} {heap : Dataset UInt8} (hd : d.store.Sound) (hh : heap.Grows)
    (o : WriteOptions) {contents : List (List UInt8)} (hcount : contents.length = d.size)
    (hlen : heap.size + contents.flatten.length < 2 ^ 64) :
    ∃ chunks heap', writeElements Sink.dataset o contents (d, heap) =
        (.ok (), { d with store := { d.store with chunks } }, heap') ∧
      Store.Sound { d.store with chunks } ∧ heap'.Grows ∧ heap'.elements = heap.elements ++ contents.flatten ∧
      ∀ c content, List.Forall₂ (· < ·) c d.shape.dims →
        contents[dot (Shape.stridesOf d.shape.dims) c]? = some content →
        (Store.value { d.store with chunks } c).Names heap'.elements content := by
  rw [← heap.length_elements] at hlen
  obtain ⟨heap', hwrite, hh', helements⟩ := HeapWriter.write_eq_ok Sink.dataset_keeps
    o.flushThreshold.toNat hh hlen
  obtain ⟨chunks, hok, hsound, hvalue⟩ := writeElements_of_write hd o hcount hlen hwrite
  refine ⟨chunks, heap', hok, hsound, hh', helements, ?_⟩
  intro c content hc hi
  rw [hvalue c hc, helements]
  exact Pointer.backToBack_names hlen hi

end Ragged

import Ragged.Proofs.Codec
import Ragged.Proofs.Progress
import Ragged.Proofs.Resolving
import Ragged.Proofs.Streaming

/-!
# Pointers in blocks

Pointers are written and read block by block, and a block is only found when the one before it is done. Every block
that is found can be written and read, so nothing stops once the first one is there, and what was written or read in
blocks is what calls on the whole dataset show.
-/

namespace Ragged

variable {σ : Type}

/-! ## Block by block -/

/-- Draws a block and acts on it before the next one is drawn, for at most `fuel` draws. -/
def Tiling.inStep (act : Slab → Action σ Unit) : Nat → Tiling → Action σ Unit
  | 0, _ => Action.view fun _ => .trap
  | fuel + 1, t => do
    match ← t.next with
    | (none, _) => return ()
    | (some slab, t) => do
      act slab
      inStep act fuel t

theorem Tiling.Left.inStep {full block : List Nat} {t : Tiling} {slabs : List Slab} (h : Left full block t slabs)
    (act : Slab → Action σ Unit) {fuel : Nat} (hf : slabs.length < fuel) :
    t.inStep act fuel = Action.forEach act slabs := by
  induction fuel generalizing t slabs with
  | zero => exact absurd hf (Nat.not_lt_zero _)
  | succ fuel ih =>
    obtain ⟨t', hnext, hleft⟩ := h.next
    rw [Tiling.inStep, hnext, Action.lift_ok_bind]
    cases slabs with
    | nil => rfl
    | cons slab slabs =>
      rw [List.length_cons, Nat.add_lt_add_iff_right] at hf
      exact congrArg (act slab >>= ·) (funext fun _ => ih hleft hf)

theorem Tiling.inStep_eq {full : List Nat} {chunk : Option (List Nat)} {budget : Nat} {t : Tiling}
    {slabs : List Slab} (ht : planned full chunk budget = .ok t) (hlist : t.toList = .ok slabs)
    (act : Slab → Action σ Unit) {fuel : Nat} (hf : slabs.length < fuel) :
    t.inStep act fuel = Action.forEach act slabs := by
  obtain ⟨block, -, hof⟩ := Outcome.bind_eq_ok.mp ht
  have hleft := ofBlock_left hof
  have hall : t.toList = .ok (gridSlabs full block) := by
    rw [toList, hleft.remaining, Outcome.ok_bind, hleft.take, List.take_length]
  obtain rfl := Outcome.ok.inj (hall.symm.trans hlist)
  exact hleft.inStep act hf

/-- `writePointers` with every block drawn, encoded and written run by run before the next one is drawn. -/
def writePointersInStep (fuel : Nat) (o : WriteOptions) (span : HeapSpan) : Action (Dataset Pointer) Unit := do
  let d ← Action.view Outcome.ok
  checkElementCount d.shape span.lengths.length
  let offsets ← span.offsets
  let tiling ← Tiling.planned d.shape.dims d.layout.chunk? o.elementBudget.toNat
  tiling.inStep (fun slab => do
    let ps ← Codec.encodeSlab d.shape slab offsets span.lengths
    Dataset.writeInPlace slab ps) fuel

/-- `forEachPointer` with every block drawn and read, and every index drawn, before the visits that need it. -/
def forEachPointerInStep (fuel budget : Nat) (pointers : View Pointer) (visit : Nat → Pointer → Action σ Unit) :
    Action σ Unit := do
  let tiling ← Tiling.planned pointers.shape.dims pointers.layout.chunk? budget
  tiling.inStep (fun slab => do
    let ps ← pointers.read slab
    Codec.decodeInStep visit pointers.shape slab ps) fuel

/-! ## Writing -/

theorem writePointersInStep_of_planned {d : Dataset Pointer} {o : WriteOptions} {t : Tiling} {slabs : List Slab}
    (ht : Tiling.planned d.shape.dims d.layout.chunk? o.elementBudget.toNat = .ok t) (hlist : t.toList = .ok slabs)
    (span : HeapSpan) {fuel : Nat} (hf : slabs.length < fuel) :
    writePointersInStep fuel o span d = (do
      checkElementCount d.shape span.lengths.length
      let offsets ← span.offsets
      Action.forEach (fun slab => do
        let ps ← Codec.encodeSlab d.shape slab offsets span.lengths
        Dataset.writeInPlace slab ps) slabs : Action (Dataset Pointer) Unit) d := by
  unfold writePointersInStep
  rw [Action.bind_of_ok (x := d) rfl]
  simp only [ht, Action.lift_ok_bind, Tiling.inStep_eq ht hlist _ hf]
  rfl

namespace Dataset

theorem Reached.write {α : Type} [Inhabited α] {d : Dataset α} (h : d.Reached) {slab : Slab} (hs : slab.Sized)
    (values : List α) : (Dataset.write slab values d).2.Reached := by
  have hcall := Reached.perform h (.write slab values) hs
  rwa [Dataset.perform, Action.snd_bind_pure] at hcall

theorem Reached.writePointersInStep {d : Dataset Pointer} (hd : d.Reached) (o : WriteOptions) (span : HeapSpan) :
    (∃ blocks, ∀ fuel, blocks < fuel → writePointersInStep fuel o span d = writePointers o span d) ∧
      (writePointers o span d).2.Reached := by
  obtain ⟨t, slabs, ht, hlist, hblocks, -⟩ := Tiling.planned_blocks hd.sound.shape hd.sound.chunked
    (UInt64.toNat_lt o.elementBudget)
  -- every block is written to a dataset in use, where writing in place and writing at once agree
  have hstep : ∀ offsets, ∀ slab ∈ slabs, ∀ d' : Dataset Pointer, d'.Reached →
      (do let ps ← Codec.encodeSlab d.shape slab offsets span.lengths; writeInPlace slab ps :
          Action (Dataset Pointer) Unit) d' =
        (do let ps ← Codec.encodeSlab d.shape slab offsets span.lengths; Dataset.write slab ps :
          Action (Dataset Pointer) Unit) d' ∧
      ((do let ps ← Codec.encodeSlab d.shape slab offsets span.lengths; Dataset.write slab ps :
          Action (Dataset Pointer) Unit) d').2.Reached := by
    intro offsets slab hslab d' hd'
    have hsized := (hblocks slab hslab).sized
    apply Action.lift_bind_agree _ hd'
    intro ps
    exact ⟨writeInPlace_eq hd'.sound hsized ps, hd'.write hsized ps⟩
  obtain ⟨hsame, hreached⟩ := Action.lift_bind_agree (checkElementCount d.shape span.lengths.length) hd
    fun _ => Action.lift_bind_agree span.offsets hd fun offsets => Action.forEach_agree (hstep offsets) hd
  rw [writePointers_of_planned ht hlist]
  refine ⟨⟨slabs.length, fun fuel hf => ?_⟩, hreached⟩
  rw [writePointersInStep_of_planned ht hlist span hf]
  exact hsame

theorem listed_eq {α : Type} [Inhabited α] {d : Dataset α} {f : Nat → α}
    (h : ∀ c, List.Forall₂ (· < ·) c d.shape.dims → d.store.value c = f (dot (Shape.stridesOf d.shape.dims) c)) :
    d.listed = (List.range d.shape.dims.prod).map f := by
  rw [listed, ← Shape.map_dot_grid, List.map_map]
  apply List.map_congr_left
  intro c hc
  exact h c (Odometer.mem_grid.mp hc)

end Dataset

theorem Codec.map_pointerOf {offsets lengths : List UInt64} (h : offsets.length = lengths.length) :
    (List.range lengths.length).map (pointerOf offsets lengths) = List.zipWith Pointer.mk offsets lengths := by
  apply List.ext_getElem
  · simp [h]
  · intro i hi hi'
    simp only [List.length_map, List.length_range] at hi
    simp [pointerOf, hi, show i < offsets.length by omega]

section
variable {d : Dataset Pointer} (hd : d.Reached) (o : WriteOptions) {span : HeapSpan}
  (hcount : span.lengths.length = d.size)
include hd hcount

theorem writePointers_read {offsets : List UInt64} (hoffsets : span.offsets = .ok offsets) :
    ∃ chunks, writePointers o span d = (.ok (), { d with store := { d.store with chunks } }) ∧
      Dataset.read { d with store := { d.store with chunks } } (Slab.whole d.shape) =
        .ok (List.zipWith Pointer.mk offsets span.lengths) := by
  have hlen : offsets.length = span.lengths.length := Pointer.length_offsetsFrom hoffsets
  have hsize : d.size = d.shape.dims.prod := hd.sound.size_eq
  obtain ⟨chunks, hok, hsound, hvalue⟩ := writePointers_eq_ok hd.sound o hoffsets (hlen.trans hcount) hcount
  refine ⟨chunks, hok, ?_⟩
  have hread := Dataset.read_whole (d := { d with store := { d.store with chunks } }) hsound hd.extent_lt
  rw [Dataset.listed_eq hvalue] at hread
  rw [← Codec.map_pointerOf hlen, hcount, hsize]
  exact hread

end

/-- Pointers are written if and only if there is a length for every element and the end of the last content is a
word. Then the whole dataset shows them in the order of their elements, whatever its layout and the budget are. If
they are not written, no pointer has changed. This is so as well if nothing is done before it is needed. -/
theorem pointers_written {d : Dataset Pointer} (hd : d.Reached) (o : WriteOptions) (span : HeapSpan) :
    let r := writePointers o span d
    (r.1 = .ok () ↔ span.lengths.length = d.size ∧
      span.start.toNat + (span.lengths.map UInt64.toNat).sum < 2 ^ 64) ∧
    (r.1 = .ok () → r.2.shape = d.shape ∧ ∃ ps, r.2.read (Slab.whole r.2.shape) = .ok ps ∧ ps.length = d.size ∧
      (∀ (i : Nat) length, span.lengths[i]? = some length → ∃ p, ps[i]? = some p ∧
        p.offset.toNat = span.start.toNat + ((span.lengths.take i).map UInt64.toNat).sum ∧ p.length = length) ∧
      ∀ (d' : Dataset Pointer) (o' : WriteOptions), d'.Reached → d'.shape.dims = d.shape.dims →
        let r' := writePointers o' span d'
        r'.1 = .ok () ∧ r'.2.read (Slab.whole r'.2.shape) = .ok ps) ∧
    (r.1 ≠ .ok () → ∃ e, r = (.fail e, d)) ∧
    (∃ blocks, ∀ fuel, blocks < fuel → writePointersInStep fuel o span d = r) ∧ r.2.Reached := by
  intro r
  obtain ⟨hinStep, hreached⟩ := hd.writePointersInStep o span
  obtain ⟨hcount, hstop, -⟩ | ⟨hnot, e, hfail⟩ := Dataset.writePointers_cases hd.sound o span
  · obtain ⟨offsets, hoffsets⟩ : ∃ offsets, span.offsets = .ok offsets :=
      (Pointer.exists_offsetsFrom_iff ..).mpr hstop
    obtain ⟨chunks, hok, hread⟩ := writePointers_read hd o hcount hoffsets
    have hr : r = _ := hok
    refine ⟨⟨fun _ => ⟨hcount, hstop⟩, fun _ => congrArg Prod.fst hr⟩, fun _ => ?_,
      fun h => absurd (congrArg Prod.fst hr) h, hinStep, hreached⟩
    rw [hr]
    refine ⟨rfl, _, hread, ?_, ?_, ?_⟩
    · rw [List.length_zipWith, Pointer.length_offsetsFrom hoffsets, Nat.min_self, hcount]
    · intro i length hi
      obtain ⟨offset, hoffset, hsum⟩ := Pointer.getElem?_offsetsFrom hoffsets hi
      exact ⟨⟨offset, length⟩, List.getElem?_zipWith_eq_some.mpr ⟨_, _, hoffset, hi, rfl⟩, hsum, rfl⟩
    · intro d' o' hd' hdims r'
      have hsize : d'.size = d.size := by
        rw [show d'.size = _ from hd'.sound.size_eq, show d.size = _ from hd.sound.size_eq]
        exact congrArg List.prod hdims
      obtain ⟨chunks', hok', hread'⟩ := writePointers_read hd' o' (hcount.trans hsize.symm) hoffsets
      rw [show r' = _ from hok']
      exact ⟨rfl, hread'⟩
  · have hr : r = (.fail e, d) := hfail
    refine ⟨?_, ?_, fun _ => ⟨e, hr⟩, hinStep, hreached⟩
    · rw [hr]
      exact ⟨nofun, fun h => absurd h hnot⟩
    · rw [hr]
      nofun

theorem Dataset.New.columns : New (α := Pointer)
    ⟨[], ⟨Shape.rowMajor [2, 2], .chunked [2, 1] [.shuffle, .deflate 1], false, [2, 1], 2, []⟩⟩ := by
  have hshape : DatasetConfig.shape ⟨[2, 2], [2, 1], 1, false⟩ = .ok (Shape.rowMajor [2, 2]) := by decide
  have hlayout : DatasetConfig.layout ⟨[2, 2], [2, 1], 1, false⟩ =
      .ok (.chunked [2, 1] [.shuffle, .deflate 1]) := by decide
  exact .fixed hshape hlayout rfl

theorem pointers_written_by_columns :
    ∃ d : Dataset Pointer, d.Reached ∧ d.store.chunkShape = [2, 1] ∧
      (let r := writePointers { elementBudget := 0 } ⟨5, [1, 0, 2, 3]⟩ d
       r.1 = .ok () ∧ r.2.read (Slab.whole r.2.shape) = .ok [⟨5, 1⟩, ⟨6, 0⟩, ⟨6, 2⟩, ⟨8, 3⟩]) ∧
      ∃ e, writePointers { elementBudget := 0 } ⟨5, [1, 0, 2, UInt64.ofNat Word.last]⟩ d = (.fail e, d) := by
  have hd := Dataset.New.columns.reached
  obtain ⟨hiff, -⟩ := pointers_written hd { elementBudget := 0 } ⟨5, [1, 0, 2, 3]⟩
  obtain ⟨hiff', -, hkept, -⟩ :=
    pointers_written hd { elementBudget := 0 } ⟨5, [1, 0, 2, UInt64.ofNat Word.last]⟩
  refine ⟨_, hd, rfl, ⟨hiff.mpr ⟨rfl, by decide⟩, by decide +kernel⟩, hkept ?_⟩
  rw [Ne, hiff']
  exact fun h => absurd h.2 (by decide)

/-! ## Reading -/

theorem forEachPointerInStep_eq {d : Dataset Pointer} (hd : d.store.Sound) {budget : Nat} (hb : budget < 2 ^ 64) :
    ∃ blocks, ∀ fuel, blocks < fuel → ∀ {σ : Type} (visit : Nat → Pointer → Action σ Unit),
      forEachPointerInStep fuel budget d.view visit = forEachPointer budget d.view visit := by
  obtain ⟨t, slabs, ht, hlist, hblocks, -⟩ := Tiling.planned_blocks hd.shape hd.chunked hb
  have hplan : Tiling.planned d.view.shape.dims d.view.layout.chunk? budget = .ok t := ht
  have hshape : d.shape = Shape.rowMajor d.shape.dims := hd.shape_eq
  refine ⟨slabs.length, fun fuel hf σ visit => ?_⟩
  rw [forEachPointerInStep, hplan, Action.lift_ok_bind, Tiling.inStep_eq ht hlist _ hf,
    forEachPointer_of_planned ht hlist]
  apply Action.forEach_congr
  intro slab hslab
  have hdecode : ∀ ps, Codec.decodeInStep visit d.shape slab ps = Codec.decodeSlab d.shape slab ps visit := by
    intro ps
    rw [hshape]
    exact Codec.decodeInStep_eq visit hd.prod_lt (hblocks slab hslab).sized ps
  exact congrArg (liftM (d.view.read slab) >>= ·) (funext hdecode)

/-- One pass in blocks visits the pointers that the whole dataset shows, every number once, and reading them in this
way is reading them at once. -/
theorem pointers_read {d : Dataset Pointer} (hd : d.Reached) (o : ReadOptions) :
    ∃ ps order blocks, d.read (Slab.whole d.shape) = .ok ps ∧ readPointers o d.view = .ok ps ∧ ps.length = d.size ∧
      walkOrder o.elementBudget.toNat d.view = .ok order ∧ order.Perm (List.range d.size) ∧
      (∀ {σ : Type} (visit : Nat → Pointer → Action σ Unit),
        forEachPointer o.elementBudget.toNat d.view visit =
            Action.forEach (fun i => visit i (ps[i]?.getD default)) order ∧
          ∀ fuel, blocks < fuel → forEachPointerInStep fuel o.elementBudget.toNat d.view visit =
            forEachPointer o.elementBudget.toNat d.view visit) ∧
      ∀ c i, d.shape.flatIndex c = .ok i → ∃ p, ps[i]? = some p ∧ d.read (Slab.element c) = .ok [p] := by
  obtain ⟨cs, hcs, hperm, horder, hpass⟩ := forEachPointer_eq hd.sound (UInt64.toNat_lt o.elementBudget)
  obtain ⟨blocks, hinStep⟩ := forEachPointerInStep_eq hd.sound (UInt64.toNat_lt o.elementBudget)
  have hshape : d.shape = Shape.rowMajor d.shape.dims := hd.sound.shape_eq
  refine ⟨d.listed, _, blocks, Dataset.read_whole hd.sound hd.extent_lt, Dataset.readPointers_eq_ok hd.sound o,
    Dataset.length_listed hd.sound, horder, hperm, ?_, ?_⟩
  · intro σ visit
    refine ⟨?_, fun fuel hf => hinStep fuel hf visit⟩
    rw [hpass visit, Action.forEach_map]
    apply Action.forEach_congr
    intro c hc
    rw [d.getElem?_listed (hcs c hc), Option.getD_some]
  · intro c i hi
    have hprod : d.shape.dims.prod < 2 ^ 64 := hd.sound.prod_lt
    rw [hshape, Shape.flatIndex_eq_ok_iff hprod] at hi
    obtain ⟨hc, rfl⟩ := hi
    refine ⟨d.store.value c, d.getElem?_listed hc, ?_⟩
    have hread := Dataset.read_block hd.sound (Slab.element_block hd.extent_lt hc)
    rwa [Slab.coords_element] at hread

theorem pointers_read_by_columns :
    ∃ d : Dataset Pointer, d.Reached ∧ walkOrder 0 d.view = .ok [0, 2, 1, 3] ∧
      d.read (Slab.whole d.shape) = .ok [⟨1, 1⟩, ⟨18446744073709551615, 2⟩, ⟨3, 0⟩, ⟨0, 2⟩] ∧
      readPointers { elementBudget := 0 } d.view =
        .ok [⟨1, 1⟩, ⟨18446744073709551615, 2⟩, ⟨3, 0⟩, ⟨0, 2⟩] := by
  have hd := Dataset.New.columns.reached.perform
    (.write ⟨[0, 0], [2, 2], 4⟩ [⟨1, 1⟩, ⟨18446744073709551615, 2⟩, ⟨3, 0⟩, ⟨0, 2⟩]) ⟨rfl, .inl rfl⟩
  obtain ⟨ps, order, -, hps, hread, -, horder, -⟩ := pointers_read hd { elementBudget := 0 }
  obtain rfl : [⟨1, 1⟩, ⟨18446744073709551615, 2⟩, ⟨3, 0⟩, ⟨0, 2⟩] = ps := Outcome.ok.inj (.trans (by decide) hps)
  obtain rfl : [0, 2, 1, 3] = order := Outcome.ok.inj (.trans (by decide) horder)
  exact ⟨_, hd, horder, hps, hread⟩

end Ragged

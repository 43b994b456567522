import Ragged.Proofs.Writing
import Ragged.Reading

/-!
# Reading arrays

Whatever the chunks and the budget are, reading visits the pointer of every coordinate once. If every visit answers,
the answers come in the order of the elements.
-/

namespace Ragged

variable {σ α β : Type}

theorem Dataset.read_block [Inhabited α] {d : Dataset α} (hd : d.store.Sound) {slab : Slab}
    (hb : slab.Block d.store.shape.dims) : d.read slab = .ok (slab.coords.map d.store.value) := by
  rw [read, hd.read_eq hb.sized.rank, hb.checkWithin rfl, hb.cells_eq]
  rfl

/-- The numbers of the elements in the order in which the blocks of a plan are walked. -/
def walkOrder (budget : Nat) (v : View α) : Outcome (List Nat) := do
  let tiling ← Tiling.planned v.shape.dims v.layout.chunk? budget
  let slabs ← tiling.toList
  let numbers ← slabs.mapM fun slab => do (← Codec.flatIndices v.shape slab).toList
  return numbers.flatten

section
variable {d : Dataset Pointer} {budget : Nat} {t : Tiling} {slabs : List Slab}
  (ht : Tiling.planned d.shape.dims d.layout.chunk? budget = .ok t) (hlist : t.toList = .ok slabs)
include ht hlist

theorem forEachPointer_of_planned (visit : Nat → Pointer → Action σ Unit) :
    forEachPointer budget d.view visit = Action.forEach (fun slab => do
      let ps ← d.view.read slab
      Codec.decodeSlab d.shape slab ps visit) slabs := by
  have hplan : Tiling.planned d.view.shape.dims d.view.layout.chunk? budget = .ok t := ht
  rw [forEachPointer, hplan, Action.lift_ok_bind, hlist, Action.lift_ok_bind]
  rfl

variable (hd : d.store.Sound) (hblocks : ∀ slab ∈ slabs, slab.Block d.shape.dims)
include hd hblocks

theorem walkOrder_of_blocks :
    walkOrder budget d.view = .ok ((slabs.flatMap Slab.coords).map (dot (Shape.stridesOf d.shape.dims))) := by
  have hshape : d.shape = Shape.rowMajor d.shape.dims := hd.shape_eq
  have hnumbers : ∀ slab ∈ slabs, (do (← Codec.flatIndices d.shape slab).toList) =
      .ok (slab.coords.map (dot (Shape.stridesOf d.shape.dims))) := by
    intro slab hs
    obtain ⟨it, hit, -, hindices⟩ := Codec.flatIndices_eq_ok hd.prod_lt (hblocks slab hs)
    rw [hshape]
    exact Outcome.bind_eq_ok.mpr ⟨it, hit, hindices⟩
  have hplan : Tiling.planned d.view.shape.dims d.view.layout.chunk? budget = .ok t := ht
  have hview : d.view.shape = d.shape := rfl
  rw [walkOrder, hplan, Outcome.ok_bind, hlist, Outcome.ok_bind, hview, Outcome.mapM_eq_ok hnumbers,
    Outcome.ok_bind, ← List.flatMap_def, ← List.map_flatMap]
  rfl

theorem forEachPointer_of_blocks (visit : Nat → Pointer → Action σ Unit) :
    forEachPointer budget d.view visit =
      Action.forEach (fun c => visit (dot (Shape.stridesOf d.shape.dims) c) (d.store.value c))
        (slabs.flatMap Slab.coords) := by
  rw [forEachPointer_of_planned ht hlist, ← Action.forEach_flatMap]
  apply Action.forEach_congr
  intro slab hs
  have hshape : d.shape = Shape.rowMajor d.shape.dims := hd.shape_eq
  have hprod : d.shape.dims.prod < 2 ^ 64 := hd.prod_lt
  have hblock := hblocks slab hs
  have hread : d.view.read slab = .ok (slab.coords.map d.store.value) := Dataset.read_block hd hblock
  have hlen : (slab.coords.map d.store.value).length = slab.size := by
    rw [List.length_map, hblock.length_coords]
  have hdecode := Codec.decodeSlab_eq hprod hblock hlen visit
  rw [← hshape, List.zip_map', Action.forEach_map] at hdecode
  rw [hread, Action.lift_ok_bind]
  exact hdecode

end

theorem forEachPointer_eq {d : Dataset Pointer} (hd : d.store.Sound) {budget : Nat} (hb : budget < 2 ^ 64) :
    ∃ cs, (∀ c ∈ cs, List.Forall₂ (· < ·) c d.shape.dims) ∧
      (cs.map (dot (Shape.stridesOf d.shape.dims))).Perm (List.range d.size) ∧
      walkOrder budget d.view = .ok (cs.map (dot (Shape.stridesOf d.shape.dims))) ∧
      ∀ {σ : Type} (visit : Nat → Pointer → Action σ Unit),
        forEachPointer budget d.view visit =
          Action.forEach (fun c => visit (dot (Shape.stridesOf d.shape.dims) c) (d.store.value c)) cs := by
  have hsize : d.size = d.shape.dims.prod := hd.size_eq
  obtain ⟨t, slabs, ht, hlist, hblocks, hperm⟩ := Tiling.planned_blocks hd.shape hd.chunked hb
  refine ⟨slabs.flatMap Slab.coords, fun c hc => Odometer.mem_grid.mp (hperm.mem_iff.mp hc), ?_,
    walkOrder_of_blocks ht hlist hd hblocks, forEachPointer_of_blocks ht hlist hd hblocks⟩
  rw [hsize, ← Shape.map_dot_grid]
  exact hperm.map _

theorem forEach_fillSlot {n : β → Nat} {v : β → Outcome α} {g : Nat → α} {l : List β} {slots : Array α}
    (h : ∀ b ∈ l, v b = .ok (g (n b)) ∧ n b < slots.size) :
    ∃ slots', Action.forEach (fun b => do fillSlot (n b) (← v b)) l slots = (.ok (), slots') ∧
      slots'.size = slots.size ∧ ∀ i, i < slots.size →
        slots'[i]? = if i ∈ l.map n then some (g i) else slots[i]? := by
  induction l generalizing slots with
  | nil =>
    refine ⟨slots, rfl, rfl, ?_⟩
    intro i _
    exact (if_neg List.not_mem_nil).symm
  | cons b l ih =>
    rw [List.forall_mem_cons] at h
    obtain ⟨⟨hv, hn⟩, hrest⟩ := h
    obtain ⟨slots', hl, hsize, hslots⟩ := @ih (slots.setIfInBounds (n b) (g (n b)))
      (by rw [Array.size_setIfInBounds]; exact hrest)
    rw [Array.size_setIfInBounds] at hsize hslots
    refine ⟨slots', ?_, hsize, ?_⟩
    · rw [Action.forEach, hv, Action.lift_ok_bind, Action.bind_apply, fillSlot, if_pos hn]
      exact hl
    · intro i hi
      rw [hslots i hi, List.map_cons]
      by_cases hm : i ∈ l.map n
      · rw [if_pos hm, if_pos (List.mem_cons_of_mem _ hm)]
      · by_cases hb : n b = i
        · subst hb
          rw [if_neg hm, if_pos (List.mem_cons_self ..), Array.getElem?_setIfInBounds, if_pos rfl, if_pos hn]
        · rw [if_neg hm, if_neg fun e => (List.mem_cons.mp e).elim (fun e => hb e.symm) hm,
            Array.getElem?_setIfInBounds, if_neg hb]

theorem forPointers_eq_ok [Inhabited α] {d : Dataset Pointer} (hd : d.store.Sound) {budget : Nat}
    (hb : budget < 2 ^ 64) {value : Nat → Pointer → Outcome α} {answers : List α} (ha : answers.length = d.size)
    (h : ∀ c a, List.Forall₂ (· < ·) c d.shape.dims →
      answers[dot (Shape.stridesOf d.shape.dims) c]? = some a →
      value (dot (Shape.stridesOf d.shape.dims) c) (d.store.value c) = .ok a) :
    forPointers budget d.view value = .ok answers := by
  obtain ⟨cs, hlt, hnumbers, -, hvisits⟩ := forEachPointer_eq hd hb
  have hsize : d.size = d.shape.dims.prod := hd.size_eq
  have hvalues : ∀ c ∈ cs, value (dot (Shape.stridesOf d.shape.dims) c) (d.store.value c) =
        .ok (answers[dot (Shape.stridesOf d.shape.dims) c]?.getD default) ∧
      dot (Shape.stridesOf d.shape.dims) c < (Array.replicate d.size (default : α)).size := by
    intro c hc
    have hn := Shape.dot_lt_prod (hlt c hc)
    rw [Array.size_replicate, hsize]
    refine ⟨h c _ (hlt c hc) ?_, hn⟩
    rw [List.getElem?_eq_getElem (by omega)]
    rfl
  obtain ⟨slots, hfill, hslots, hfilled⟩ := forEach_fillSlot (g := fun i => answers[i]?.getD default) hvalues
  rw [Array.size_replicate] at hslots hfilled
  have hlist : slots.toList = answers := by
    apply List.ext_getElem?
    intro i
    rw [Array.getElem?_toList]
    by_cases hi : i < d.size
    · rw [hfilled i hi, if_pos (hnumbers.mem_iff.mpr (List.mem_range.mpr hi)),
        List.getElem?_eq_getElem (by omega)]
      rfl
    · rw [Array.getElem?_eq_none (by omega), List.getElem?_eq_none (by omega)]
  have hrun : forEachPointer budget d.view (fun flat p => do fillSlot flat (← value flat p))
      (Array.replicate d.view.shape.size default) = (.ok (), slots) := by
    rw [hvisits]
    exact hfill
  simp only [forPointers, hrun, Outcome.ok_bind, hlist]

/-- If the visit of an element fails and those of all elements before it on the walk answer, reading fails with its
error. -/
theorem forEach_fillSlot_fail {n : β → Nat} {v : β → Outcome α} {g : Nat → α} {before : List β} {slots : Array α}
    (h : ∀ b ∈ before, v b = .ok (g (n b)) ∧ n b < slots.size) (after : List β) {b : β} {e : Error}
    (hb : v b = .fail e) :
    (Action.forEach (fun b => do fillSlot (n b) (← v b)) (before ++ b :: after) slots).1 = .fail e := by
  obtain ⟨slots', hfill, -, -⟩ := forEach_fillSlot h
  rw [Action.forEach_append, Action.bind_apply, hfill]
  dsimp only
  rw [Action.forEach, hb]
  rfl

theorem forPointers_eq_fail [Inhabited α] {budget : Nat} {pointers : View Pointer}
    {value : Nat → Pointer → Outcome α} {e : Error}
    (h : (forEachPointer budget pointers (fun flat p => do fillSlot flat (← value flat p))
      (Array.replicate pointers.shape.size default)).1 = .fail e) :
    forPointers budget pointers value = .fail e := by
  simp only [forPointers]
  rcases hwalk : forEachPointer budget pointers (fun flat p => do fillSlot flat (← value flat p))
    (Array.replicate pointers.shape.size default) with ⟨x, slots⟩
  rw [hwalk] at h
  obtain rfl := h
  rfl

/-- What is read is decided by the first element on the walk whose visit fails. -/
theorem forPointers_eq_find [Inhabited α] {d : Dataset Pointer} (hd : d.store.Sound) {budget : Nat}
    (hb : budget < 2 ^ 64) (value : Nat → Pointer → Outcome α) (bad : Nat → Bool) (err : Nat → Error) (g : Nat → α)
    (h : ∀ c, List.Forall₂ (· < ·) c d.shape.dims →
      value (dot (Shape.stridesOf d.shape.dims) c) (d.store.value c) =
        if bad (dot (Shape.stridesOf d.shape.dims) c) then .fail (err (dot (Shape.stridesOf d.shape.dims) c))
        else .ok (g (dot (Shape.stridesOf d.shape.dims) c))) :
    ∃ order, walkOrder budget d.view = .ok order ∧ order.Perm (List.range d.size) ∧
      forPointers budget d.view value =
        match order.find? bad with
        | none => .ok ((List.range d.size).map g)
        | some f => .fail (err f) := by
  obtain ⟨cs, hlt, hnumbers, horder, hvisits⟩ := forEachPointer_eq hd hb
  have hsize : d.size = d.shape.dims.prod := hd.size_eq
  refine ⟨_, horder, hnumbers, ?_⟩
  cases hfind : (cs.map (dot (Shape.stridesOf d.shape.dims))).find? bad with
  | none =>
    apply forPointers_eq_ok hd hb (by rw [List.length_map, List.length_range])
    intro c a hc ha
    have hn : dot (Shape.stridesOf d.shape.dims) c < d.size := hsize ▸ Shape.dot_lt_prod hc
    have hgood := List.find?_eq_none.mp hfind _ (hnumbers.mem_iff.mpr (List.mem_range.mpr hn))
    rw [List.getElem?_map, List.getElem?_range hn] at ha
    obtain rfl := Option.some.inj ha
    rw [h c hc, if_neg hgood]
  | some f =>
    obtain ⟨hbad, as, bs, hsplit, has⟩ := List.find?_eq_some_iff_append.mp hfind
    obtain ⟨before, rest, rfl, rfl, hrest⟩ := List.map_eq_append_iff.mp hsplit
    obtain ⟨c, after, rfl, rfl, rfl⟩ := List.map_eq_cons_iff.mp hrest
    have hanswers : ∀ b ∈ before, value (dot (Shape.stridesOf d.shape.dims) b) (d.store.value b) =
          .ok (g (dot (Shape.stridesOf d.shape.dims) b)) ∧
        dot (Shape.stridesOf d.shape.dims) b < (Array.replicate d.view.shape.size (default : α)).size := by
      intro b hb
      have hb' := hlt b (List.mem_append_left _ hb)
      have hgood := has _ (List.mem_map_of_mem hb)
      rw [Bool.not_eq_true'] at hgood
      refine ⟨(h b hb').trans (if_neg (by rw [hgood]; exact Bool.false_ne_true)), ?_⟩
      rw [Array.size_replicate]
      exact (Shape.dot_lt_prod hb').trans_eq hsize.symm
    apply forPointers_eq_fail
    rw [hvisits]
    exact forEach_fillSlot_fail hanswers after ((h c (hlt c (by simp))).trans (if_pos hbad))

end Ragged

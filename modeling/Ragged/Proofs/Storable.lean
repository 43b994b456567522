import Ragged.Proofs.Creating
import Ragged.Proofs.StoredForm

/-!
# What can be stored

A store without chunks of its own keeps its elements in one chunk, which has the extents of the shape with zeros raised
to one. So an uncompressed array can be written if and only if the cells of this chunk can be counted in a word. That
holds of every accepted shape with elements, but a zero extent can hide a product that is no word.
-/

namespace Ragged

variable {X : Type} [Elements X]

/-! ## The single chunk -/

namespace Shape

/-- The extents of the chunk in which a store without chunks of its own keeps its elements. -/
def room (dims : List Nat) : List Nat := dims.map (max · 1)

theorem zero_not_mem_room (dims : List Nat) : 0 ∉ room dims := by
  intro h
  obtain ⟨d, -, hd⟩ := List.mem_map.mp h
  omega

theorem room_eq_self {dims : List Nat} (h0 : 0 ∉ dims) : room dims = dims := by
  refine (List.map_congr_left fun d hd => ?_).trans (List.map_id dims)
  exact Nat.max_eq_left (Nat.pos_of_ne_zero fun h => h0 (h ▸ hd))

theorem ofDims_of_pos {dims : List Nat} (h0 : 0 ∉ dims) : ofDims dims =
    if dims.prod < 2 ^ 64 then .ok (rowMajor dims)
    else .fail (.invalidArgument s!"shape {Text.extents dims} has more elements than fit in a u64") := by
  by_cases hp : dims.prod < 2 ^ 64
  · rw [if_pos hp, ofDims_of_prod h0 hp]
  · rw [if_neg hp, ofDims]
    cases hst : strides? dims with
    | none => rfl
    | some r =>
      obtain ⟨-, hprod, hlt⟩ := strides?_eq hst
      exact absurd (hprod ▸ hlt) hp

end Shape

theorem Store.create_contiguous {α : Type} (dims : List Nat) (extensible : Bool) :
    create (α := α) (Shape.rowMajor dims) .contiguous extensible =
      if (Shape.room dims).prod < 2 ^ 64 then
        .ok ⟨Shape.rowMajor dims, .contiguous, extensible, Shape.room dims, (Shape.room dims).prod, []⟩
      else .fail (.invalidArgument s!"shape {Text.extents (Shape.room dims)} has more elements than fit in a u64") := by
  have hchunk := Shape.ofDims_of_pos (Shape.zero_not_mem_room dims)
  have hlength : (Shape.room dims).length = (Shape.rowMajor dims).rank := List.length_map _
  rw [create, Layout.chunk?, Option.getD_none, Shape.rowMajor_dims, ← Shape.room, Outcome.require, if_pos hlength,
    Outcome.ok_bind, hchunk]
  by_cases hp : (Shape.room dims).prod < 2 ^ 64
  · rw [if_pos hp, if_pos hp]
    rfl
  · rw [if_neg hp, if_neg hp]
    rfl

section
variable {dims : List Nat} {s : Shape} {o : WriteOptions}

theorem WriteOptions.shape_pointerConfig (hs : Shape.ofDims dims = .ok s) (hw : ∀ d ∈ dims, d < 2 ^ 64) :
    (o.pointerConfig s).shape = .ok s := by
  obtain ⟨rfl, -⟩ := Shape.ofDims_eq_ok hs
  cases dims with
  | nil => rfl
  | cons d dims =>
    have hwords : ((d :: dims).map UInt64.ofNat).map UInt64.toNat = d :: dims := by
      rw [List.map_map]
      exact (List.map_congr_left fun n hn => UInt64.toNat_ofNat_of_lt' (hw n hn)).trans (List.map_id _)
    rw [pointerConfig, if_neg (by simp [Shape.isScalar])]
    exact (congrArg Shape.ofDims hwords).trans hs

theorem WriteOptions.layout_pointerConfig (hlevel : o.compressionLevel = 0) (hchunk : o.chunkShape = []) (s : Shape) :
    (o.pointerConfig s).layout = .ok .contiguous := by
  unfold pointerConfig
  by_cases h : s.isScalar = true
  · rw [if_pos h]
    rfl
  · rw [if_neg h, hlevel, hchunk]
    rfl

end

namespace Catalog

theorem fixedItem_pointers {dims : List Nat} {s : Shape} {o : WriteOptions} (hs : Shape.ofDims dims = .ok s)
    (hw : ∀ d ∈ dims, d < 2 ^ 64) (hlevel : o.compressionLevel = 0) (hchunk : o.chunkShape = []) :
    fixedItem (X := X) .pointer (o.pointerConfig s) =
      if (Shape.room dims).prod < 2 ^ 64 then
        .ok (.dataset .pointer ⟨s, .contiguous, false, Shape.room dims, (Shape.room dims).prod, []⟩)
      else .fail (.invalidArgument s!"shape {Text.extents (Shape.room dims)} has more elements than fit in a u64") := by
  have hconfig := WriteOptions.shape_pointerConfig (o := o) hs hw
  obtain ⟨rfl, -⟩ := Shape.ofDims_eq_ok hs
  rw [fixedItem, hconfig, Outcome.ok_bind, WriteOptions.layout_pointerConfig hlevel hchunk, Outcome.ok_bind,
    Store.create_contiguous]
  by_cases hp : (Shape.room dims).prod < 2 ^ 64
  · rw [if_pos hp, if_pos hp]
    rfl
  · rw [if_neg hp, if_neg hp]
    rfl

theorem growingItem_uncompressed {chunkLen : Option UInt64} (hlen : chunkLen ≠ some 0) (path : String) :
    ∃ store, growingItem (X := X) .byte path chunkLen 0 = .ok (.dataset .byte store) ∧ store.extensible = true ∧
      store.shape.size = 0 ∧ ∀ path, Dataset.New ⟨path, store⟩ := by
  have h0 : chunkLen.getD defaultChunkLen ≠ 0 := by
    cases chunkLen with
    | none => decide
    | some n => exact fun h => hlen (congrArg some h)
  refine ⟨_, ?_, rfl, rfl, fun path => .uncompressed path h0⟩
  have hlayout : extensibleLayout (chunkLen.getD defaultChunkLen) 0 = .ok (.chunked [chunkLen.getD defaultChunkLen] []) :=
    rfl
  have hshape : Shape.ofDims [0] = .ok (Shape.rowMajor [0]) := rfl
  rw [growingItem, Outcome.require, if_pos h0, Outcome.ok_bind, hlayout, Outcome.ok_bind, hshape, Outcome.ok_bind,
    Dataset.create_growing h0]
  rfl

/-! ## A new group -/

theorem Vacant.add {c : Catalog X} {p q : Path} (h : c.Vacant p) (hne : p ≠ q) (item : Item X) :
    (c.add q item).Vacant p := by
  refine ⟨h.proper, h.parent.imp_right fun hparent => (suffix_add c q item).1.subset hparent, ?_⟩
  rw [(keys_add c q item).mem_iff, List.mem_cons, not_or]
  exact ⟨hne, h.fresh⟩

theorem vacant_of_unused {c : Catalog X} {path name : String} (hname : Path.ofString path = [name])
    (hgroup : c.hasGroup path = false) (hdataset : c.hasDataset path = false) : c.Vacant (Path.ofString path) := by
  have hgroups := mt groupExists_iff.mpr (Bool.eq_false_iff.mp hgroup)
  have hentries := entry?_eq_none.mp (Option.not_isSome_iff_eq_none.mp (Bool.eq_false_iff.mp hdataset))
  refine ⟨by simp [hname], .inl (by rw [hname]; rfl), fun hmem => ?_⟩
  exact (mem_keys.mp hmem).elim (fun h => hgroups (.inr h)) hentries

theorem Hierarchy.vacant_child {c : Catalog X} (h : c.Hierarchy) {p : Path} (hv : c.Vacant p) (name : String) :
    (c.add p .group).Vacant (p ++ [name]) := by
  have hparent : (p ++ [name]).parent = p := List.dropLast_concat
  refine ⟨by simp, .inr (hparent.symm ▸ List.mem_cons_self), ?_⟩
  rw [(keys_add c p .group).mem_iff, List.mem_cons, not_or]
  refine ⟨by simp, fun hmem => ?_⟩
  have hnested := h.nested _ hmem
  rw [hparent] at hnested
  exact hv.fresh (mem_keys.mpr (.inl (hnested.resolve_left hv.proper)))

theorem place_of_vacant {c : Catalog X} {p : Path} (hv : c.Vacant p) (item : Item X) :
    place p (.ok item) c = (.ok (), c.add p item) := by
  obtain ⟨_, hitem, -, hplace⟩ | ⟨hrefused, -⟩ := place_cases (x := .ok item) nofun p c
  · obtain rfl := Outcome.ok.inj hitem
    exact hplace
  · exact absurd hv (hrefused item rfl)

theorem placeAll_of_made {c c' : Catalog X} {steps : List (Path × Outcome (Item X))} (h : Made c steps c') :
    placeAll steps c = (.ok (), c') := by
  induction h with
  | nil c => rfl
  | cons hv _ ih =>
    rw [placeAll_cons, Action.bind_apply, place_of_vacant hv]
    exact ih

end Catalog

namespace StoredArray

open Catalog

theorem steps_of_vacant {c : Catalog X} {group : String} (hv : c.Vacant (Path.ofString group)) (s : Shape)
    (o : WriteOptions) : steps c group s o = (Path.ofString group, .ok .group) :: members group s o := by
  refine if_neg fun hexists => ?_
  exact hv.fresh (mem_keys.mpr (.inl ((groupExists_iff.mp hexists).resolve_left hv.proper)))

/-- Creates a group with the pointers and the heap of an array. -/
def addArray (c : Catalog X) (p : Path) (pointers : Store Pointer) (heap : Store UInt8) : Catalog X :=
  ((c.add p .group).add (p ++ ["pointers"]) (.dataset .pointer pointers)).add (p ++ ["heap"]) (.dataset .byte heap)

theorem made_addArray {c : Catalog X} (hc : c.Hierarchy) {p : Path} (hv : c.Vacant p) (pointers : Store Pointer)
    (heap : Store UInt8) :
    Made c [(p, .ok .group), (p ++ ["pointers"], .ok (.dataset .pointer pointers)),
      (p ++ ["heap"], .ok (.dataset .byte heap))] (addArray c p pointers heap) := by
  refine .cons hv (.cons (hc.vacant_child hv _) (.cons ((hc.vacant_child hv _).add ?_ _) (.nil _)))
  simp

theorem datasets_addArray (c : Catalog X) (group : String) (pointers : Store Pointer) (heap : Store UInt8) :
    let c' := addArray c (Path.ofString group) pointers heap
    c'.dataset? (inGroup group).pointers = some ⟨Path.ofString group ++ ["pointers"], pointers⟩ ∧
      c'.dataset? (inGroup group).heap = some ⟨Path.ofString group ++ ["heap"], heap⟩ := by
  intro c'
  rw [dataset?_eq_some, dataset?_eq_some, entry?, entry?]
  simp [c', addArray, Catalog.add, inGroup, Entry.path]

section
variable {c : Catalog X} {group : String} (hc : c.Hierarchy) (hv : c.Vacant (Path.ofString group)) {dims : List Nat}
  {s : Shape} (hs : Shape.ofDims dims = .ok s) (hw : ∀ d ∈ dims, d < 2 ^ 64) {o : WriteOptions}
  (hlevel : o.compressionLevel = 0) (hchunk : o.chunkShape = [])
include hc hv hs hw hlevel hchunk

theorem create_vacant (hheap : o.heapChunkLen ≠ some 0) (hp : (Shape.room dims).prod < 2 ^ 64) :
    ∃ (pointers : Store Pointer) (heap : Store UInt8),
      create group s o c = (.ok (inGroup group), addArray c (Path.ofString group) pointers heap) ∧
      (∀ path, Dataset.New ⟨path, pointers⟩) ∧ (∀ path, Dataset.New ⟨path, heap⟩) ∧ heap.extensible = true ∧
      pointers.shape = s ∧ heap.shape.size = 0 := by
  have hpointers := fixedItem_pointers (X := X) hs hw hlevel hchunk
  rw [if_pos hp] at hpointers
  obtain ⟨heap, hheap, hext, hsize, hnew⟩ :=
    growingItem_uncompressed (X := X) hheap (Path.child (Path.trimSlashes group) "heap")
  obtain ⟨pointers, hitem, hfixed⟩ := fixedItem_eq_ok hpointers
  obtain rfl := eq_of_heq (Item.dataset.inj hitem).2
  refine ⟨_, heap, ?_, hfixed, hnew, hext, rfl, hsize⟩
  rw [create_eq, steps_of_vacant hv, members, hpointers, hlevel, hheap, Action.bind_apply,
    placeAll_of_made (made_addArray hc hv _ heap)]
  rfl

omit hc

theorem create_without_room (hp : ¬ (Shape.room dims).prod < 2 ^ 64) :
    create group s o c =
      (.fail (.invalidArgument s!"shape {Text.extents (Shape.room dims)} has more elements than fit in a u64"),
        c.add (Path.ofString group) .group) := by
  have hpointers := fixedItem_pointers (X := X) hs hw hlevel hchunk
  rw [if_neg hp] at hpointers
  rw [create_eq, steps_of_vacant hv, members, hpointers, placeAll_cons, Action.bind_apply, Action.bind_apply,
    place_of_vacant hv]
  rfl

end

theorem write_ok_iff {c : Catalog X} {group : String} {pointers : Store Pointer} {heap : Store UInt8}
    (hpointers : ∀ path, Dataset.New ⟨path, pointers⟩) (hheap : ∀ path, Dataset.New ⟨path, heap⟩)
    (hext : heap.extensible = true) (hsize : heap.shape.size = 0) (o : WriteOptions) {contents : List (List UInt8)}
    (hcount : contents.length = pointers.shape.size) :
    ((inGroup group).write o contents (addArray c (Path.ofString group) pointers heap)).1 = .ok () ↔
      (contents.map List.length).sum < 2 ^ 64 := by
  obtain ⟨hd, hh⟩ := datasets_addArray c group pointers heap
  have hiff := writeElements_ok_iff (hpointers (Path.ofString group ++ ["pointers"])).reached
    (hheap (Path.ofString group ++ ["heap"])).reached hext o hcount
  rw [write_eq hd hh]
  refine hiff.trans ?_
  rw [show Dataset.size ⟨_, heap⟩ = 0 from hsize, Nat.zero_add, List.length_flatten]

/-- Contents for all elements of an accepted shape can be stored under a new name, without compression, if the cells of
the chunk that holds their pointers can be counted in a word. They can for every shape with elements. For one without,
the array may be refused: then the group is all that is made. -/
theorem shapes_storable {c : Catalog X} (hc : c.Hierarchy) {group name : String} (hname : Path.ofString group = [name])
    (hgroup : c.hasGroup group = false) (hdataset : c.hasDataset group = false) {dims : List Nat} {s : Shape}
    (hs : Shape.ofDims dims = .ok s) (hw : ∀ d ∈ dims, d < 2 ^ 64) {o : WriteOptions} (hlevel : o.compressionLevel = 0)
    (hchunk : o.chunkShape = []) (hheap : o.heapChunkLen ≠ some 0) {contents : List (List UInt8)}
    (hcount : contents.length = s.size) :
    let r := createWritten group s o contents c
    (r.1 = .ok (inGroup group) ↔ (Shape.room dims).prod < 2 ^ 64 ∧ (contents.map List.length).sum < 2 ^ 64) ∧
    (0 ∉ dims → (Shape.room dims).prod < 2 ^ 64) ∧
    (¬ (Shape.room dims).prod < 2 ^ 64 → 0 ∈ dims ∧ contents = [] ∧
      r = (.fail (.invalidArgument s!"shape {Text.extents (Shape.room dims)} has more elements than fit in a u64"),
        c.add [name] .group)) := by
  intro r
  have hv := vacant_of_unused hname hgroup hdataset
  have hr : r = _ := congrFun (createWritten_of_count hcount group o) c
  obtain ⟨hrow, hprod⟩ := Shape.ofDims_eq_ok hs
  have hfit : 0 ∉ dims → (Shape.room dims).prod < 2 ^ 64 := fun h0 => by rwa [Shape.room_eq_self h0]
  by_cases hp : (Shape.room dims).prod < 2 ^ 64
  · refine ⟨?_, hfit, absurd hp⟩
    obtain ⟨pointers, heap, hcreate, hnew, hnew', hext, rfl, hsize⟩ := create_vacant hc hv hs hw hlevel hchunk hheap hp
    rw [and_iff_right hp, ← write_ok_iff (X := X) hnew hnew' hext hsize o hcount, hr, Action.bind_apply, hcreate]
    dsimp only
    rw [Action.bind_apply]
    rcases (inGroup (X := X) group).write o contents _ with ⟨x, c'⟩
    cases x with
    | ok => exact iff_of_true rfl rfl
    | fail => simp
    | trap => simp
  · have hfail : r = (.fail (.invalidArgument
        s!"shape {Text.extents (Shape.room dims)} has more elements than fit in a u64"), c.add [name] .group) := by
      rw [hr, Action.bind_apply, create_without_room hv hs hw hlevel hchunk hp, hname]
    have h0 : 0 ∈ dims := by
      by_contra h0
      exact hp (hfit h0)
    refine ⟨?_, hfit, fun _ => ⟨h0, ?_, hfail⟩⟩
    · rw [hfail]
      exact iff_of_false (by simp) fun h => hp h.1
    · rw [hrow] at hcount
      exact List.eq_nil_of_length_eq_zero (hcount.trans (List.prod_eq_zero h0))

theorem shapes_storable_near_the_bound :
    let start : Catalog := empty
    (createWritten "/g/" (Shape.rowMajor [4294967296, 4294967295, 0, 0]) { heapChunkLen := some 1 } [] start).1 =
      .ok (inGroup "/g/") ∧
    createWritten "g" (Shape.rowMajor [4294967296, 4294967296, 0]) {} [] start =
      (.fail (.invalidArgument "shape [4294967296, 4294967296, 1] has more elements than fit in a u64"),
        start.add ["g"] .group) := by
  intro start
  have hs : Shape.ofDims [4294967296, 4294967295, 0, 0] = .ok (Shape.rowMajor [4294967296, 4294967295, 0, 0]) := by decide
  have hs' : Shape.ofDims [4294967296, 4294967296, 0] = .ok (Shape.rowMajor [4294967296, 4294967296, 0]) := by decide
  obtain ⟨hiff, -, -⟩ := @shapes_storable Empty _ start hierarchy_empty "/g/" "g" (by decide) rfl rfl _ _ hs (by decide)
    { heapChunkLen := some 1 } rfl rfl (by decide) [] rfl
  obtain ⟨-, -, hfail⟩ := @shapes_storable Empty _ start hierarchy_empty "g" "g" (by decide) rfl rfl _ _ hs' (by decide)
    {} rfl rfl (by decide) [] rfl
  obtain ⟨-, -, hfail⟩ := hfail (by decide)
  exact ⟨hiff.mpr (by decide), hfail⟩

theorem empty_shape_refused :
    ∃ s, Shape.ofDims [9223372036854775808, 2, 0] = .ok s ∧ s.size = 0 ∧
      (createWritten "g" s {} [] (empty : Catalog)).1 =
        .fail (.invalidArgument "shape [9223372036854775808, 2, 1] has more elements than fit in a u64") :=
  ⟨Shape.rowMajor [9223372036854775808, 2, 0], by decide, by decide, by decide⟩

end StoredArray

end Ragged

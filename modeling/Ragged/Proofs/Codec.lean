import Ragged.Proofs.Atomic
import Ragged.Proofs.Writing

/-!
# Encoding and decoding

The pointers that are picked out for a slab come back with the numbers they had. Encoding and decoding walk the slab
each for itself, and whatever a visitor does, decoding makes its visits in the order of the walk until one of them
does not answer.
-/

namespace Ragged

namespace Indices

/-- Draw by draw the iterator gives these indices, and then none. -/
inductive Gives : Indices → List Nat → Prop
  | done {it it' : Indices} (h : it.next = .ok (none, it')) : Gives it []
  | next {it it' : Indices} {i : Nat} {is : List Nat} (h : it.next = .ok (some i, it')) (rest : Gives it' is) :
      Gives it (i :: is)

theorem Left.gives {base : Nat} {strides counts : List Nat} (hl : strides.length = counts.length)
    (hw : ∀ c ∈ counts, c < 2 ^ 64)
    (hf : ∀ ps, List.Forall₂ (· < ·) ps counts → (Odometer.succ counts ps).2 = false → Fits base ps counts strides)
    {it : Indices} {is : List Nat} (h : Left base strides counts it is) : it.Gives is := by
  induction is generalizing it with
  | nil =>
    obtain ⟨it', hnext, -⟩ := h.next hl hw hf
    exact .done hnext
  | cons i is ih =>
    obtain ⟨it', hnext, hleft⟩ := h.next hl hw hf
    exact .next hnext (ih hleft)

end Indices

namespace Codec

variable {dims : List Nat} {slab : Slab}

theorem block_of_within (hw : ∀ d ∈ dims, d < 2 ^ 64) (hs : slab.Sized) (hin : slab.Within (Shape.rowMajor dims))
    (hz : slab.size ≠ 0) : slab.Block dims where
  inside := (Slab.checkWithin_eq_ok hs.rank).mp ((Slab.checkWithin_iff hs.rank hw).mpr hin)
  counts := hs.counts_ne_zero hz
  size := hs.size.resolve_right hz

/-- The numbers of the elements of a slab, in the order of its coordinates. -/
def indices (dims : List Nat) (slab : Slab) : List Nat := slab.coords.map (dot (Shape.stridesOf dims))

section
variable (hd : dims.prod < 2 ^ 64) (h : slab.Block dims)
include h

theorem length_indices : (indices dims slab).length = slab.size := by
  rw [indices, List.length_map, h.length_coords]

theorem indices_lt : ∀ i ∈ indices dims slab, i < dims.prod := by
  intro i hi
  obtain ⟨c, hc, rfl⟩ := List.mem_map.mp hi
  exact Shape.dot_lt_prod (h.coord_lt hc)

include hd

theorem mapM_flatIndex : slab.coords.mapM (Shape.rowMajor dims).flatIndex = .ok (indices dims slab) := by
  apply Outcome.mapM_eq_ok
  intro c hc
  exact Shape.flatIndex_eq_ok hd (h.coord_lt hc)

theorem encodeSlab_indices {offsets lengths : List UInt64} (ho : offsets.length = dims.prod)
    (hl : lengths.length = dims.prod) :
    encodeSlab (Shape.rowMajor dims) slab offsets lengths =
      .ok ((indices dims slab).map (pointerOf offsets lengths)) := by
  have hencode := encodeSlab_eq_ok hd h ho hl fun i hi => pointerAt_eq_ok (ho ▸ hi) (hl ▸ hi)
  rw [hencode, indices, List.map_map]
  rfl

theorem decodeSlab_indices {σ : Type} {ps : List Pointer} (hps : ps.length = slab.size)
    (visit : Nat × Pointer → Action σ Unit) :
    decodeSlab (Shape.rowMajor dims) slab ps (Function.curry visit) =
      Action.forEach visit ((indices dims slab).zip ps) :=
  decodeSlab_eq hd h hps (Function.curry visit)

end

theorem getElem?_pointerOf {offsets lengths : List UInt64} {i : Nat} (ho : i < offsets.length)
    (hl : i < lengths.length) : offsets[i]? = some (pointerOf offsets lengths i).offset ∧
      lengths[i]? = some (pointerOf offsets lengths i).length := by
  simp [pointerOf, ho, hl]

/-! ## Refusals -/

section
variable {s : Shape} (hw : ∀ d ∈ s.dims, d < 2 ^ 64) (hs : slab.Sized)

theorem checkCount_eq_fail {what : String} {count : Nat} (h : count ≠ s.size) :
    ∃ e, checkCount s what count = .fail e := ⟨_, if_neg h⟩

include hw hs

theorem flatIndices_eq_fail (h : ¬ slab.Within s) : ∃ e, flatIndices s slab = .fail e := by
  obtain ⟨hin, -⟩ | ⟨-, e, he⟩ := Slab.checkWithin_cases hs.rank hw
  · exact absurd hin h
  · exact ⟨e, by rw [flatIndices, he, Outcome.fail_bind]⟩

theorem encodeSlab_eq_fail {offsets lengths : List UInt64}
    (h : ¬ (offsets.length = s.size ∧ lengths.length = s.size ∧ slab.Within s)) :
    ∃ e, encodeSlab s slab offsets lengths = .fail e := by
  by_cases ho : offsets.length = s.size
  · by_cases hl : lengths.length = s.size
    · obtain ⟨e, he⟩ := flatIndices_eq_fail hw hs fun hin => h ⟨ho, hl, hin⟩
      rw [encodeSlab, checkCount_eq_ok _ ho, checkCount_eq_ok _ hl, he]
      exact ⟨e, rfl⟩
    · obtain ⟨e, he⟩ := checkCount_eq_fail hl
      rw [encodeSlab, checkCount_eq_ok _ ho, he]
      exact ⟨e, rfl⟩
  · obtain ⟨e, he⟩ := checkCount_eq_fail ho
    rw [encodeSlab, he]
    exact ⟨e, rfl⟩

end

theorem decodeSlab_of_pairs {s : Shape} {ps : List Pointer} {e : Error} (h : pairs s slab ps = .fail e)
    {σ : Type} (visit : Nat → Pointer → Action σ Unit) (st : σ) : decodeSlab s slab ps visit st = (.fail e, st) := by
  rw [decodeSlab, h]
  rfl

theorem pairs_eq_fail (hd : dims.prod < 2 ^ 64) (hw : ∀ d ∈ dims, d < 2 ^ 64) (hs : slab.Sized) {ps : List Pointer}
    (h : ¬ slab.Within (Shape.rowMajor dims) ∨ slab.size ≠ 0 ∧ ps.length ≠ slab.size) :
    ∃ e, pairs (Shape.rowMajor dims) slab ps = .fail e := by
  by_cases hin : slab.Within (Shape.rowMajor dims)
  · obtain ⟨hz, hps⟩ := h.resolve_left (not_not.mpr hin)
    obtain ⟨it, hit, hrem, -⟩ := flatIndices_eq_ok hd (block_of_within hw hs hin hz)
    rw [pairs, hit, Outcome.ok_bind, Outcome.require, if_neg (by rw [hrem]; exact hps.symm)]
    exact ⟨_, rfl⟩
  · obtain ⟨e, he⟩ := flatIndices_eq_fail hw hs hin
    rw [pairs, he]
    exact ⟨e, rfl⟩

/-! ## Steps of decoding -/

section
variable {σ : Type} (visit : Nat → Pointer → Action σ Unit)

/-- Draws an index, takes a pointer and visits, until there is none of the one or the other. -/
def visitInStep : Indices → List Pointer → Action σ Unit
  | it, [] => do
    let _ ← it.next
    return ()
  | it, p :: ps => do
    match ← it.next with
    | (none, _) => return ()
    | (some flat, it) => do
      visit flat p
      visitInStep it ps

/-- `decodeSlab` with every index drawn right before its visit. -/
def decodeInStep (s : Shape) (slab : Slab) (pointers : List Pointer) : Action σ Unit := do
  let it ← flatIndices s slab
  Outcome.require (it.remaining = pointers.length)
    (.shapeMismatch s!"{it.remaining} records for slab {slab.render}" s!"{pointers.length} records")
  visitInStep visit it pointers

theorem visitInStep_eq {it : Indices} {is : List Nat} (h : it.Gives is) (ps : List Pointer) :
    visitInStep visit it ps = Action.forEach (fun (flat, p) => visit flat p) (is.zip ps) := by
  induction h generalizing ps with
  | done hnext =>
    rw [List.zip_nil_left]
    cases ps with
    | nil =>
      rw [visitInStep, hnext]
      rfl
    | cons p ps =>
      rw [visitInStep, hnext]
      rfl
  | next hnext _ ih =>
    cases ps with
    | nil =>
      rw [visitInStep, hnext]
      rfl
    | cons p ps =>
      rw [visitInStep, hnext, Action.lift_ok_bind, List.zip_cons_cons, Action.forEach, ← ih ps]

theorem flatIndices_gives (hd : dims.prod < 2 ^ 64) (hs : slab.Sized) {it : Indices}
    (h : flatIndices (Shape.rowMajor dims) slab = .ok it) : ∃ is, it.Gives is ∧ it.toList = .ok is := by
  obtain ⟨⟨⟩, hwithin, hit⟩ := Outcome.bind_eq_ok.mp h
  have hin : Slab.Inside slab.starts slab.counts dims := (Slab.checkWithin_eq_ok hs.rank).mp hwithin
  have hl := Indices.length_strides hin
  have hit : Indices.ofSlab (Shape.stridesOf dims) slab = .ok it := hit
  rcases Indices.ofSlab_cases hl with ⟨hstart, -⟩ | ⟨-, htrap⟩
  · obtain ⟨it', hit', hleft⟩ := Indices.ofSlab_left hs hl hstart
    obtain rfl := Outcome.ok.inj (hit'.symm.trans hit)
    have hcounts := Indices.count_lt hin
    have hfits := Indices.fits_inside hd hin
    exact ⟨_, hleft.gives (hl.trans hs.rank) hcounts hfits, hleft.toList (hl.trans hs.rank) hcounts hfits⟩
  · rw [htrap] at hit
    cases hit

theorem decodeInStep_eq (hd : dims.prod < 2 ^ 64) (hs : slab.Sized) (ps : List Pointer) :
    decodeInStep visit (Shape.rowMajor dims) slab ps = decodeSlab (Shape.rowMajor dims) slab ps visit := by
  unfold decodeInStep decodeSlab pairs
  cases hit : flatIndices (Shape.rowMajor dims) slab with
  | fail e => rfl
  | trap => rfl
  | ok it =>
    obtain ⟨is, hgives, hlist⟩ := flatIndices_gives hd hs hit
    rw [Action.lift_ok_bind, Outcome.ok_bind, visitInStep_eq visit hgives, hlist]
    by_cases hcount : it.remaining = ps.length
    · rw [Outcome.require, if_pos hcount]
      rfl
    · rw [Outcome.require, if_neg hcount]
      rfl

end

/-! ## All calls and the first calls -/

/-- Decoding makes these calls one after the other. If all of them answer it answers as well, and if not it answers
as the first that does not, and makes no call after it. -/
structure Decodes (s : Shape) (slab : Slab) (ps : List Pointer) (calls : List (Nat × Pointer)) : Prop where
  all {σ : Type} {visit : Nat × Pointer → Action σ Unit} {st st' : σ} (h : Action.Visits visit calls st st') :
    decodeSlab s slab ps (Function.curry visit) st = (.ok (), st') ∧
      decodeSlab s slab ps (Function.curry (Action.noting visit)) (st, []) = (.ok (), st', calls)
  stops {σ : Type} {visit : Nat × Pointer → Action σ Unit} {before after : List (Nat × Pointer)}
    {call : Nat × Pointer} {st st' t : σ} {x : Outcome Unit} (hcalls : calls = before ++ call :: after)
    (h : Action.Visits visit before st st') (hcall : visit call st' = (x, t)) (hx : x ≠ .ok ()) :
    decodeSlab s slab ps (Function.curry visit) st = (x, t) ∧
      decodeSlab s slab ps (Function.curry (Action.noting visit)) (st, []) = (x, t, before ++ [call])

theorem decodes_of_eq {s : Shape} {ps : List Pointer} {calls : List (Nat × Pointer)}
    (heq : ∀ {σ : Type} (visit : Nat × Pointer → Action σ Unit),
      decodeSlab s slab ps (Function.curry visit) = Action.forEach visit calls) : Decodes s slab ps calls where
  all h := by
    rw [heq, heq]
    exact ⟨h.forEach, (h.noting []).forEach⟩
  stops hcalls h hcall hx := by
    rw [heq, heq, hcalls]
    refine ⟨h.forEach_stops hcall hx _, (h.noting []).forEach_stops ?_ hx _⟩
    simp only [Action.noting, hcall, List.nil_append]

/-! ## Walks over blocks -/

section
variable (hd : dims.prod < 2 ^ 64) {slabs : List Slab}
include hd

theorem forEach_decode_encoded (hblocks : ∀ slab ∈ slabs, slab.Block dims) {offsets lengths : List UInt64}
    (ho : offsets.length = dims.prod) (hl : lengths.length = dims.prod) {σ : Type}
    (visit : Nat × Pointer → Action σ Unit) :
    Action.forEach (fun slab => do
        let ps ← encodeSlab (Shape.rowMajor dims) slab offsets lengths
        decodeSlab (Shape.rowMajor dims) slab ps (Function.curry visit)) slabs =
      Action.forEach visit
        ((slabs.flatMap (indices dims)).map fun i => (i, pointerOf offsets lengths i)) := by
  rw [Action.forEach_map, ← Action.forEach_flatMap]
  apply Action.forEach_congr
  intro slab hslab
  have h := hblocks slab hslab
  have hlen : ((indices dims slab).map (pointerOf offsets lengths)).length = slab.size := by
    rw [List.length_map, length_indices h]
  have hzip : (indices dims slab).zip ((indices dims slab).map (pointerOf offsets lengths)) =
      (indices dims slab).map fun i => (i, pointerOf offsets lengths i) := by
    rw [indices, List.map_map, List.zip_map', List.map_map]
    rfl
  rw [encodeSlab_indices hd h ho hl, Action.lift_ok_bind, decodeSlab_indices hd h hlen, hzip, Action.forEach_map]

omit hd in
theorem indices_perm (h : (slabs.flatMap Slab.coords).Perm (Odometer.grid dims)) :
    (slabs.flatMap (indices dims)).Perm (List.range dims.prod) := by
  have hmap : slabs.flatMap (indices dims) = (slabs.flatMap Slab.coords).map (dot (Shape.stridesOf dims)) :=
    List.map_flatMap.symm
  rw [hmap, ← Shape.map_dot_grid]
  exact h.map _

end

/-- Decoding undoes encoding. A slab with elements that lies in an accepted shape is given the offsets and lengths of
its elements in the order of its coordinates, and decoding visits them with their numbers in this order, index by
index, up to the first visit that does not answer. Wrong counts and slabs that do not lie in the shape are refused
before anything is visited. Over the slabs of a walk every element is visited once, with the pointer that was picked
out for it. -/
theorem encoded_slabs_decoded {dims : List Nat} {s : Shape} (hs : Shape.ofDims dims = .ok s)
    (hw : ∀ d ∈ dims, d < 2 ^ 64) :
    (∀ slab : Slab, slab.Sized → slab.Within s → slab.size ≠ 0 →
      ∃ is, slab.coords.mapM s.flatIndex = .ok is ∧ is.length = slab.size ∧
        (∀ offsets lengths, offsets.length = s.size → lengths.length = s.size →
          ∃ records, encodeSlab s slab offsets lengths = .ok records ∧
            List.Forall₂ (fun i p => offsets[i]? = some p.offset ∧ lengths[i]? = some p.length) is records) ∧
        ∀ records, records.length = slab.size → Decodes s slab records (is.zip records)) ∧
    (∀ (slab : Slab) offsets lengths, slab.Sized →
      ¬ (offsets.length = s.size ∧ lengths.length = s.size ∧ slab.Within s) →
      ∃ e, encodeSlab s slab offsets lengths = .fail e) ∧
    (∀ (slab : Slab) records, slab.Sized → ¬ slab.Within s ∨ slab.size ≠ 0 ∧ records.length ≠ slab.size →
      ∃ e, ∀ {σ : Type} (visit : Nat → Pointer → Action σ Unit) st,
        decodeSlab s slab records visit st = (.fail e, st)) ∧
    (∀ (slab : Slab) records, slab.Sized → ∀ {σ : Type} (visit : Nat → Pointer → Action σ Unit),
      decodeInStep visit s slab records = decodeSlab s slab records visit) ∧
    ∀ block, block.length = dims.length → 0 ∉ block →
      ∃ t slabs, Tiling.ofBlock dims block = .ok t ∧ t.toList = .ok slabs ∧
        ∀ offsets lengths, offsets.length = s.size → lengths.length = s.size →
          ∃ calls : List (Nat × Pointer), (calls.map Prod.fst).Perm (List.range s.size) ∧
            (∀ i p, (i, p) ∈ calls → offsets[i]? = some p.offset ∧ lengths[i]? = some p.length) ∧
            ∀ {σ : Type} (visit : Nat × Pointer → Action σ Unit),
              Action.forEach (fun slab => do
                let ps ← encodeSlab s slab offsets lengths
                decodeSlab s slab ps (Function.curry visit)) slabs = Action.forEach visit calls := by
  obtain ⟨rfl, hd⟩ := Shape.ofDims_eq_ok hs
  refine ⟨?_, ?_, ?_, ?_, ?_⟩
  · intro slab hsized hin hz
    have h := block_of_within hw hsized hin hz
    refine ⟨indices dims slab, mapM_flatIndex hd h, length_indices h, ?_, ?_⟩
    · intro offsets lengths ho hl
      refine ⟨_, encodeSlab_indices hd h ho hl, ?_⟩
      rw [List.forall₂_map_right_iff, List.forall₂_same]
      intro i hi
      have hlt := indices_lt h i hi
      exact getElem?_pointerOf (ho ▸ hlt) (hl ▸ hlt)
    · intro records hrecords
      exact decodes_of_eq (decodeSlab_indices hd h hrecords)
  · intro slab offsets lengths hsized h
    exact encodeSlab_eq_fail hw hsized h
  · intro slab records hsized h
    obtain ⟨e, he⟩ := pairs_eq_fail hd hw hsized h
    exact ⟨e, fun visit st => decodeSlab_of_pairs he visit st⟩
  · intro slab records hsized σ visit
    exact decodeInStep_eq visit hd hsized records
  · intro block hl h0
    obtain ⟨t, slabs, ht, hlist, hblocks, hperm⟩ := Tiling.ofBlock_blocks hs hl.symm fun _ => h0
    refine ⟨t, slabs, ht, hlist, ?_⟩
    intro offsets lengths ho hl
    have hnumbers := indices_perm hperm
    refine ⟨_, ?_, ?_, forEach_decode_encoded hd hblocks ho hl⟩
    · rw [List.map_map]
      exact (List.map_id _).symm ▸ hnumbers
    · intro i p hip
      obtain ⟨i', hi, heq⟩ := List.mem_map.mp hip
      obtain ⟨rfl, rfl⟩ := Prod.mk.inj heq
      have hlt := List.mem_range.mp (hnumbers.mem_iff.mp hi)
      exact getElem?_pointerOf (ho ▸ hlt) (hl ▸ hlt)

theorem encoded_slabs_decoded_right_columns :
    let visit : Nat × Pointer → Action Nat Unit := fun (i, p) n =>
      (Outcome.require (i ≠ 4) (.invalidArgument "stop"), n + p.length.toNat)
    encodeSlab (Shape.rowMajor [2, 3]) ⟨[0, 1], [2, 2], 4⟩ [0, 1, 3, 6, 10, 15] [1, 2, 3, 4, 5, 6] =
      .ok [⟨1, 2⟩, ⟨3, 3⟩, ⟨10, 5⟩, ⟨15, 6⟩] ∧
    decodeSlab (Shape.rowMajor [2, 3]) ⟨[0, 1], [2, 2], 4⟩ [⟨1, 2⟩, ⟨3, 3⟩, ⟨10, 5⟩, ⟨15, 6⟩]
      (Function.curry (Action.noting visit)) (0, []) =
        (.fail (.invalidArgument "stop"), 10, [(1, ⟨1, 2⟩), (2, ⟨3, 3⟩), (4, ⟨10, 5⟩)]) ∧
    (∃ e, encodeSlab (Shape.rowMajor [2, 3]) ⟨[1, 0], [2, 3], 6⟩ [0, 1, 3, 6, 10, 15] [1, 2, 3, 4, 5, 6] =
      .fail e) ∧
    (∃ e, decodeSlab (Shape.rowMajor [2, 3]) ⟨[1, 0], [2, 3], 6⟩ [] (Function.curry visit) 0 = (.fail e, 0)) ∧
    ∃ t slabs, Tiling.ofBlock [2, 3] [2, 2] = .ok t ∧ t.toList = .ok slabs ∧
      ∃ calls : List (Nat × Pointer), (calls.map Prod.fst).Perm (List.range 6) ∧
        Action.forEach (fun slab => do
          let ps ← encodeSlab (Shape.rowMajor [2, 3]) slab [0, 1, 3, 6, 10, 15] [1, 2, 3, 4, 5, 6]
          decodeSlab (Shape.rowMajor [2, 3]) slab ps (Function.curry visit)) slabs = Action.forEach visit calls := by
  intro visit
  obtain ⟨hslabs, hencode, hdecode, -, hwalk⟩ := @encoded_slabs_decoded [2, 3] (Shape.rowMajor [2, 3]) rfl (by decide)
  obtain ⟨is, his, -, hencoded, hdecoded⟩ := hslabs ⟨[0, 1], [2, 2], 4⟩ ⟨rfl, .inl rfl⟩ (by decide) (by decide)
  obtain rfl : [1, 2, 4, 5] = is := Outcome.ok.inj (.trans (by decide) his)
  obtain ⟨records, hrecords, -⟩ := hencoded [0, 1, 3, 6, 10, 15] [1, 2, 3, 4, 5, 6] rfl rfl
  obtain rfl : [⟨1, 2⟩, ⟨3, 3⟩, ⟨10, 5⟩, ⟨15, 6⟩] = records := Outcome.ok.inj (.trans (by decide) hrecords)
  have hvisits : Action.Visits visit [(1, ⟨1, 2⟩), (2, ⟨3, 3⟩)] 0 5 := .cons rfl (.cons rfl .nil)
  have hstop : visit (4, ⟨10, 5⟩) 5 = (.fail (.invalidArgument "stop"), 10) := rfl
  obtain ⟨e, he⟩ := hdecode ⟨[1, 0], [2, 3], 6⟩ [] ⟨rfl, .inl rfl⟩ (.inl (by decide))
  have hfail : Outcome.fail (.invalidArgument "stop") ≠ .ok () := nofun
  obtain ⟨t, slabs, ht, hlist, hcalls⟩ := hwalk [2, 2] rfl (by decide)
  obtain ⟨calls, hperm, -, hpass⟩ := hcalls [0, 1, 3, 6, 10, 15] [1, 2, 3, 4, 5, 6] rfl rfl
  exact ⟨hrecords, ((hdecoded _ rfl).stops rfl hvisits hstop hfail).2,
    hencode _ _ _ ⟨rfl, .inl rfl⟩ (by decide), ⟨e, he _ 0⟩, t, slabs, ht, hlist, calls, hperm, hpass visit⟩

end Codec

end Ragged

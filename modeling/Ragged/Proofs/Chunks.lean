import Ragged.Proofs.Reading

/-!
# Chunks and blocks

A planned block is made of whole chunks, or takes up all of the array, in every dimension. So the elements of one chunk
lie in one block, and a pass over the blocks comes to every chunk once. `Slab.Reaches` is what reading and writing of a
slab depend on: other chunks are neither read nor changed.
-/

namespace Ragged

/-! ## Blocks of whole chunks -/

namespace Plan

inductive Aligned : List Nat → List Nat → List Nat → Prop
  | nil : Aligned [] [] []
  | cons {c f b : Nat} {chunk full block : List Nat} (whole : b = f ∨ c ∣ b) (rest : Aligned chunk full block) :
      Aligned (c :: chunk) (f :: full) (b :: block)

theorem aligned_full {chunk full : List Nat} (hl : chunk.length = full.length) : Aligned chunk full full := by
  induction chunk generalizing full with
  | nil =>
    obtain rfl := List.eq_nil_of_length_eq_zero hl.symm
    exact .nil
  | cons c chunk ih =>
    obtain ⟨f, full, rfl⟩ := List.exists_cons_of_length_eq_add_one hl.symm
    exact .cons (.inl rfl) (ih (by simpa using hl))

/-- A chunk that is cut to the array is the chunk or all of the array, and so are multiples of it that are cut. -/
theorem min_mul_whole (c f multiple : Nat) : min f (min c f * multiple) = f ∨ c ∣ min f (min c f * multiple) := by
  rcases Nat.le_total c f with hc | hc
  · rw [Nat.min_eq_left hc]
    rcases Nat.le_total f (c * multiple) with hm | hm
    · exact .inl (Nat.min_eq_left hm)
    · rw [Nat.min_eq_right hm]
      exact .inr (Nat.dvd_mul_right c multiple)
  · rw [Nat.min_eq_right hc]
    rcases Nat.eq_zero_or_pos multiple with rfl | hm
    · exact .inr (by simp)
    · exact .inl (Nat.min_eq_left (Nat.le_mul_of_pos_right f hm))

theorem Grown.aligned {chunk full block : List Nat} (hl : chunk.length = full.length)
    (h : Grown (List.zipWith min chunk full) full block) : Aligned chunk full block := by
  induction full generalizing chunk block with
  | nil =>
    obtain rfl := List.eq_nil_of_length_eq_zero hl
    cases h
    exact .nil
  | cons f full ih =>
    obtain ⟨c, chunk, rfl⟩ := List.exists_cons_of_length_eq_add_one hl
    have hl : chunk.length = full.length := by simpa using hl
    cases h with
    | kept rest =>
      have hwhole := min_mul_whole c f 1
      rw [Nat.mul_one, Nat.min_eq_right (Nat.min_le_right c f)] at hwhole
      exact .cons hwhole (ih hl rest)
    | scaled multiple => exact .cons (min_mul_whole c f multiple) (aligned_full hl)

theorem Aligned.div_eq {chunk full block x y : List Nat} (h : Aligned chunk full block)
    (hx : List.Forall₂ (· < ·) x full) (hy : List.Forall₂ (· < ·) y full)
    (hkey : List.zipWith (· / ·) x chunk = List.zipWith (· / ·) y chunk) :
    List.zipWith (· / ·) x block = List.zipWith (· / ·) y block := by
  induction h generalizing x y with
  | nil => simp
  | @cons c f b chunk full block hwhole _ ih =>
    obtain _ | ⟨hx, hxs⟩ := hx
    obtain _ | ⟨hy, hys⟩ := hy
    rename_i i x j y
    simp only [List.zipWith_cons_cons, List.cons.injEq] at hkey ⊢
    refine ⟨?_, ih hxs hys hkey.2⟩
    -- one block takes up the extent, or a block is a number of chunks and its key the key of the chunk, divided again
    rcases hwhole with rfl | ⟨m, rfl⟩
    · rw [Nat.div_eq_of_lt hx, Nat.div_eq_of_lt hy]
    · rw [← Nat.div_div_eq_div_mul, ← Nat.div_div_eq_div_mul, hkey.1]

end Plan

namespace Tiling

theorem OnGrid.div_eq {full block ks x : List Nat} (h : OnGrid full block ks)
    (hx : x ∈ (blockAt full block ks).coords) : List.zipWith (· / ·) x block = ks := by
  induction h generalizing x with
  | nil => simp
  | @cons f b k full block ks _ hb _ _ ih =>
    obtain ⟨i, hi, hrow⟩ := List.mem_flatMap.mp hx
    obtain ⟨xs, hxs, rfl⟩ := List.mem_map.mp hrow
    have hi : b * k ≤ i ∧ i < b * k + min b (f - b * k) := List.mem_range'_1.mp hi
    have hk : i / b = k := by
      rw [show i = b * k + (i - b * k) by omega, Nat.mul_add_div (by omega), Nat.div_eq_of_lt (by omega), Nat.add_zero]
    have hks : List.zipWith (· / ·) xs block = ks := ih hxs
    rw [List.zipWith_cons_cons, hk, hks]

theorem gridSlabs_apart {chunk full block : List Nat} (hl : full.length = block.length) (h0 : 0 ∉ block)
    (hf : 0 ∉ full) (hp : full.prod < 2 ^ 64) (ha : Plan.Aligned chunk full block) {i j : Nat} {a b : Slab}
    (hi : (gridSlabs full block)[i]? = some a) (hj : (gridSlabs full block)[j]? = some b) {x y : List Nat}
    (hx : x ∈ a.coords) (hy : y ∈ b.coords) (hkey : List.zipWith (· / ·) x chunk = List.zipWith (· / ·) y chunk) :
    i = j := by
  have hblocks := gridSlabs_blocks hl h0 hf hp
  have hxlt := (hblocks a (List.mem_of_getElem? hi)).coord_lt hx
  have hylt := (hblocks b (List.mem_of_getElem? hj)).coord_lt hy
  rw [gridSlabs, List.getElem?_map, Option.map_eq_some_iff] at hi hj
  obtain ⟨ks, hi, rfl⟩ := hi
  obtain ⟨ls, hj, rfl⟩ := hj
  -- each element tells the position of its block, and the grid lists a position once
  have hks := (onGrid_of_mem hl h0 hf hp (List.mem_of_getElem? hi)).div_eq hx
  have hls := (onGrid_of_mem hl h0 hf hp (List.mem_of_getElem? hj)).div_eq hy
  obtain rfl : ks = ls := by rw [← hks, ← hls, ha.div_eq hxlt hylt hkey]
  have hlt := (List.getElem?_eq_some_iff.mp hi).1
  exact (List.getElem?_inj hlt (Odometer.grid_nodup _)).mp (hi.trans hj.symm)

theorem planned_apart {full chunk : List Nat} {budget : Nat} {t : Tiling}
    (h : planned full (some chunk) budget = .ok t) (hb : budget < 2 ^ 64) :
    ∃ slabs, t.toList = .ok slabs ∧ ∀ (i j : Nat) (a b : Slab) (x y : List Nat), slabs[i]? = some a →
      slabs[j]? = some b → x ∈ a.coords → y ∈ b.coords →
      List.zipWith (· / ·) x chunk = List.zipWith (· / ·) y chunk → i = j := by
  by_cases hf : 0 ∈ full
  · exact ⟨[], (walks_planned_void h hf).list, by simp⟩
  · obtain ⟨block, hl, h0, hp, hc, hgrown, hwalks⟩ := walks_planned h hb hf
    have ha : Plan.Aligned chunk full block := hgrown.aligned (hc chunk rfl).1
    exact ⟨_, hwalks.list, fun i j a b x y hi hj hx hy => gridSlabs_apart hl.symm h0 hf hp ha hi hj hx hy⟩

end Tiling

/-! ## Chunks that are reached -/

/-- One of the runs of a slab lies in the chunk. -/
def Slab.Reaches (chunk : List Nat) (slab : Slab) (key : List Nat) : Prop :=
  ∃ runs, slab.runs chunk = .ok runs ∧ ∃ r ∈ runs, r.chunk = key

theorem Slab.Inside.reaches_iff {dims chunk : List Nat} {slab : Slab} (h : Slab.Inside slab.starts slab.counts dims)
    (hl : chunk.length = dims.length) (h0 : 0 ∉ chunk) (hp : chunk.prod < 2 ^ 64) {key : List Nat} :
    slab.Reaches chunk key ↔ ∃ x ∈ slab.cells, List.zipWith (· / ·) x chunk = key := by
  obtain ⟨runs, hruns, hplaces, hfits⟩ := Slab.runs_eq_ok h (hl.trans h.length_eq.2.symm) h0 hp
  constructor
  · rintro ⟨runs', hruns', r, hr, rfl⟩
    obtain rfl := Outcome.ok.inj (hruns.symm.trans hruns')
    have hlen := (hfits r hr).1
    have hfirst : (r.chunk, r.offset) ∈ r.places :=
      List.mem_map.mpr ⟨r.offset, List.mem_range'_1.mpr (by omega), rfl⟩
    have hmem := List.mem_flatMap.mpr ⟨r, hr, hfirst⟩
    rw [hplaces] at hmem
    obtain ⟨x, hx, hplace⟩ := List.mem_map.mp hmem
    exact ⟨x, hx, congrArg Prod.fst hplace⟩
  · rintro ⟨x, hx, rfl⟩
    have hmem : place chunk x ∈ runs.flatMap Run.places := hplaces ▸ List.mem_map_of_mem hx
    obtain ⟨r, hr, hplace⟩ := List.mem_flatMap.mp hmem
    obtain ⟨i, -, hi⟩ := List.mem_map.mp hplace
    exact ⟨runs, hruns, r, hr, congrArg Prod.fst hi⟩

theorem Slab.Block.reaches_iff {dims chunk : List Nat} {slab : Slab} (h : slab.Block dims)
    (hl : chunk.length = dims.length) (h0 : 0 ∉ chunk) (hp : chunk.prod < 2 ^ 64) {key : List Nat} :
    slab.Reaches chunk key ↔ ∃ x ∈ slab.coords, List.zipWith (· / ·) x chunk = key := by
  rw [h.inside.reaches_iff hl h0 hp, h.cells_eq]

namespace Store

variable {α : Type} [Inhabited α]

theorem lookup_writeRuns {runs : List Run} {s s' : Store α} {values : List α} {key : List Nat}
    (h : s.writeRuns runs values = .ok s') (hk : ∀ r ∈ runs, r.chunk ≠ key) :
    s'.chunks.lookup key = s.chunks.lookup key := by
  induction runs generalizing s values with
  | nil =>
    obtain rfl := Outcome.ok.inj h
    rfl
  | cons r runs ih =>
    rw [List.forall_mem_cons] at hk
    obtain ⟨s₁, hr, hrs⟩ := Outcome.bind_eq_ok.mp h
    unfold writeRun at hr
    dsimp only at hr
    split at hr
    · obtain rfl := Outcome.ok.inj hr
      rw [ih hrs hk.2, lookup_setChunk, if_neg (Ne.symm hk.1)]
    · cases hr

theorem lookup_write {s s' : Store α} {slab : Slab} {values : List α} {key : List Nat}
    (h : s.write slab values = .ok s') (hk : ¬ slab.Reaches s.chunkShape key) :
    s'.chunks.lookup key = s.chunks.lookup key := by
  obtain ⟨_, -, h⟩ := Outcome.bind_eq_ok.mp h
  obtain ⟨_, -, h⟩ := Outcome.bind_eq_ok.mp h
  obtain ⟨runs, hruns, h⟩ := Outcome.bind_eq_ok.mp h
  exact lookup_writeRuns h fun r hr hkey => hk ⟨runs, hruns, r, hr, hkey⟩

theorem read_congr {s s' : Store α} {slab : Slab} (hshape : s'.shape = s.shape)
    (hchunk : s'.chunkShape = s.chunkShape)
    (h : ∀ key, slab.Reaches s.chunkShape key → s'.chunks.lookup key = s.chunks.lookup key) :
    s'.read slab = s.read slab := by
  unfold read
  rw [hshape, hchunk]
  cases hruns : slab.runs s.chunkShape with
  | ok runs =>
    have hread : ∀ r ∈ runs, s'.readRun r = s.readRun r := by
      intro r hr
      unfold readRun
      rw [h r.chunk ⟨runs, hruns, r, hr, rfl⟩]
    rw [Outcome.ok_bind, Outcome.ok_bind, Outcome.mapM_congr hread]
  | fail e => rfl
  | trap => rfl

end Store

/-! ## Passes -/

/-- No chunk holds elements of two slabs of a planned walk. So a pass over the pointers of a dataset in chunks, be it to
read or to write them, comes to every chunk with exactly one of its slabs, whatever the budget is: what a slab reads or
changes lies in the chunks that it reaches. -/
theorem chunks_in_one_block :
    (∀ (full chunk : List Nat) (budget : UInt64) (t : Tiling), Tiling.planned full (some chunk) budget.toNat = .ok t →
      ∃ slabs, t.toList = .ok slabs ∧ ∀ (i j : Nat) (a b : Slab) (x y : List Nat), slabs[i]? = some a →
        slabs[j]? = some b → x ∈ a.coords → y ∈ b.coords →
        List.zipWith (· / ·) x chunk = List.zipWith (· / ·) y chunk → i = j) ∧
    (∀ (d : Dataset Pointer) (chunk : List Nat) (budget : UInt64), d.Reached → d.layout.chunk? = some chunk →
      ∃ slabs : List Slab,
        (∀ {σ : Type} (visit : Nat → Pointer → Action σ Unit), forEachPointer budget.toNat d.view visit =
          Action.forEach (fun slab => do
            let ps ← d.view.read slab
            Codec.decodeSlab d.shape slab ps visit) slabs) ∧
        (∀ (o : WriteOptions) (span : HeapSpan), o.elementBudget = budget → writePointers o span d = (do
            checkElementCount d.shape span.lengths.length
            let offsets ← span.offsets
            Action.forEach (fun slab => do
              let ps ← Codec.encodeSlab d.shape slab offsets span.lengths
              Dataset.write slab ps) slabs : Action (Dataset Pointer) Unit) d) ∧
        (∀ c, d.shape.contains c = true →
          ∃! i : Nat, ∃ slab : Slab, slabs[i]? = some slab ∧
            slab.Reaches d.store.chunkShape (List.zipWith (· / ·) c chunk)) ∧
        ∀ slab ∈ slabs, ∀ key, slab.Reaches d.store.chunkShape key →
          ∃ c, d.shape.contains c = true ∧ List.zipWith (· / ·) c chunk = key) ∧
    ∀ (s s' : Store Pointer) (slab : Slab),
      (∀ values key, s.write slab values = .ok s' → ¬ slab.Reaches s.chunkShape key →
        s'.chunks.lookup key = s.chunks.lookup key) ∧
      (s'.shape = s.shape → s'.chunkShape = s.chunkShape →
        (∀ key, slab.Reaches s.chunkShape key → s'.chunks.lookup key = s.chunks.lookup key) →
        s'.read slab = s.read slab) := by
  refine ⟨fun full chunk budget t ht => Tiling.planned_apart ht (UInt64.toNat_lt budget), ?_, fun s s' slab =>
    ⟨fun values key => Store.lookup_write, Store.read_congr⟩⟩
  intro d chunk budget hd hchunk
  have hs := hd.sound
  obtain rfl := hs.layout chunk hchunk
  obtain ⟨t, slabs, ht, hlist, hblocks, hperm⟩ :=
    Tiling.planned_blocks hs.shape hs.chunked (UInt64.toNat_lt budget)
  have hplan : Tiling.planned d.shape.dims (some d.store.chunkShape) budget.toNat = .ok t := hchunk ▸ ht
  obtain ⟨slabs', hlist', hapart⟩ := Tiling.planned_apart hplan (UInt64.toNat_lt budget)
  obtain rfl := Outcome.ok.inj (hlist.symm.trans hlist')
  have hreach : ∀ slab ∈ slabs, ∀ key, slab.Reaches d.store.chunkShape key ↔
      ∃ x ∈ slab.coords, List.zipWith (· / ·) x d.store.chunkShape = key :=
    fun slab hslab key => (hblocks slab hslab).reaches_iff hs.rank hs.positive hs.words
  refine ⟨slabs, forEachPointer_of_planned ht hlist, ?_, ?_, ?_⟩
  · rintro o span rfl
    exact writePointers_of_planned ht hlist span
  · intro c hc
    obtain ⟨slab, hslab, hmem⟩ := List.mem_flatMap.mp (mem_blocks hperm (Shape.contains_iff.mp hc))
    obtain ⟨i, hi⟩ := List.getElem?_of_mem hslab
    refine ⟨i, ⟨slab, hi, (hreach slab hslab _).mpr ⟨c, hmem, rfl⟩⟩, ?_⟩
    rintro j ⟨slab', hj, hother⟩
    obtain ⟨y, hy, hkey⟩ := (hreach slab' (List.mem_of_getElem? hj) _).mp hother
    exact hapart j i slab' slab y c hj hi hy hmem hkey
  · intro slab hslab key hkey
    obtain ⟨x, hx, rfl⟩ := (hreach slab hslab key).mp hkey
    exact ⟨x, Shape.contains_iff.mpr ((hblocks slab hslab).coord_lt hx), rfl⟩

theorem chunks_in_one_block_three_by_three :
    (∃ t slabs, Tiling.planned [3, 3] (some [2, 2]) 5 = .ok t ∧ t.toList = .ok slabs ∧
      slabs.map Slab.starts = [[0, 0], [0, 2], [2, 0], [2, 2]] ∧
      ∀ (i j : Nat) (a b : Slab), slabs[i]? = some a → slabs[j]? = some b → [0, 1] ∈ a.coords → [1, 0] ∈ b.coords →
        i = j) ∧
    ∃ d : Dataset Pointer, d.Reached ∧ d.layout.chunk? = some [2, 2] ∧ d.shape.dims = [3, 3] ∧ ∃ slabs : List Slab,
      (∀ visit : Nat → Pointer → Action Nat Unit, forEachPointer 5 d.view visit =
        Action.forEach (fun slab => do
          let ps ← d.view.read slab
          Codec.decodeSlab d.shape slab ps visit) slabs) ∧
      ∃! i : Nat, ∃ slab : Slab, slabs[i]? = some slab ∧ slab.Reaches [2, 2] [1, 0] := by
  have hshape : DatasetConfig.shape ⟨[3, 3], [2, 2], 1, false⟩ = .ok (Shape.rowMajor [3, 3]) := by decide
  have hlayout : DatasetConfig.layout ⟨[3, 3], [2, 2], 1, false⟩ =
      .ok (.chunked [2, 2] [.shuffle, .deflate 1]) := by decide
  have hnew : Dataset.New (α := Pointer)
      ⟨[], ⟨Shape.rowMajor [3, 3], .chunked [2, 2] [.shuffle, .deflate 1], false, [2, 2], 4, []⟩⟩ :=
    .fixed hshape hlayout rfl
  obtain ⟨hwalk, hpass, -⟩ := chunks_in_one_block
  obtain ⟨slabs, hlist, hapart⟩ := hwalk [3, 3] [2, 2] 5 _ rfl
  obtain ⟨slabs', hvisits, -, hone, -⟩ := hpass _ [2, 2] 5 hnew.reached rfl
  refine ⟨⟨_, slabs, rfl, hlist, ?_, fun i j a b hi hj hx hy => hapart i j a b _ _ hi hj hx hy rfl⟩,
    _, hnew.reached, rfl, rfl, slabs', hvisits, hone [2, 1] (by decide)⟩
  obtain rfl := Outcome.ok.inj hlist
  rfl

end Ragged

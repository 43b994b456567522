import Mathlib.Data.List.Dedup
import Ragged.Proofs.Access
import Ragged.Proofs.Atomic
import Ragged.Proofs.Chunks

/-!
# Chunks that take room

A dataset keeps room for the chunks that hold a written element, and for no others. So the number of its chunks can be
told from the history of its calls: it is the number of positions, on the grid of chunks, of the coordinates that were
written.
-/

namespace Ragged

theorem Slab.Sized.size_eq_zero {slab : Slab} (h : slab.Sized) (he : slab.cells = []) : slab.size = 0 := by
  rw [← h.length_cells, he, List.length_nil]

namespace Store

variable {α : Type}

/-- The positions of the chunks that take room. -/
def keys (s : Store α) : List (List Nat) := s.chunks.map Prod.fst

@[simp] theorem length_keys (s : Store α) : s.keys.length = s.allocatedChunks := List.length_map _

theorem keys_setChunk (key : List Nat) (cells : Array α) (chunks : List (List Nat × Array α)) :
    (setChunk key cells chunks).map Prod.fst =
      if key ∈ chunks.map Prod.fst then chunks.map Prod.fst else chunks.map Prod.fst ++ [key] := by
  induction chunks with
  | nil => rfl
  | cons chunk chunks ih =>
    obtain ⟨k, old⟩ := chunk
    unfold setChunk
    by_cases hk : k = key
    · simp [hk]
    · rw [if_neg hk, List.map_cons, ih, List.map_cons]
      by_cases hmem : key ∈ chunks.map Prod.fst
      · rw [if_pos hmem, if_pos (List.mem_cons_of_mem k hmem)]
      · have hne : key ∉ k :: chunks.map Prod.fst := List.not_mem_cons_of_ne_of_not_mem (Ne.symm hk) hmem
        rw [if_neg hmem, if_neg hne, List.cons_append]

/-- Positions come to the list if they are reached and not yet there, and every position is there once. -/
structure Allocates (before : List (List Nat)) (reached : List Nat → Prop) (after : List (List Nat)) : Prop where
  mem : ∀ key, key ∈ after ↔ key ∈ before ∨ reached key
  nodup : before.Nodup → after.Nodup

theorem allocates_none {keys : List (List Nat)} {reached : List Nat → Prop} (h : ∀ key, ¬ reached key) :
    Allocates keys reached keys :=
  ⟨fun key => by simp [h key], id⟩

theorem Allocates.trans {before mid after : List (List Nat)} {first second : List Nat → Prop}
    (h : Allocates before first mid) (h' : Allocates mid second after) :
    Allocates before (fun key => first key ∨ second key) after :=
  ⟨fun key => by rw [h'.mem, h.mem, or_assoc], h'.nodup ∘ h.nodup⟩

theorem allocates_setChunk (key : List Nat) (cells : Array α) (chunks : List (List Nat × Array α)) :
    Allocates (chunks.map Prod.fst) (key = ·) ((setChunk key cells chunks).map Prod.fst) := by
  rw [keys_setChunk]
  by_cases hmem : key ∈ chunks.map Prod.fst
  · rw [if_pos hmem]
    exact ⟨fun k => ⟨.inl, fun h => h.elim id fun he => he ▸ hmem⟩, id⟩
  · rw [if_neg hmem]
    refine ⟨fun k => by rw [List.mem_append, List.mem_singleton, eq_comm], fun hn => ?_⟩
    rw [List.nodup_append]
    refine ⟨hn, List.nodup_singleton key, ?_⟩
    rintro k hk k' hk' rfl
    exact hmem (List.mem_singleton.mp hk' ▸ hk)

variable [Inhabited α]

theorem writeRuns_allocates {runs : List Run} {s s' : Store α} {values : List α}
    (h : s.writeRuns runs values = .ok s') : Allocates s.keys (fun key => ∃ r ∈ runs, r.chunk = key) s'.keys := by
  induction runs generalizing s values with
  | nil =>
    obtain rfl := Outcome.ok.inj h
    exact allocates_none fun key => by simp
  | cons r runs ih =>
    obtain ⟨mid, hrun, hrest⟩ := Outcome.bind_eq_ok.mp h
    unfold writeRun at hrun
    dsimp only at hrun
    split at hrun
    · obtain rfl := Outcome.ok.inj hrun
      simp only [List.exists_mem_cons_iff]
      exact (allocates_setChunk r.chunk _ s.chunks).trans (ih hrest)
    · cases hrun

/-- The cells of some coordinates were written: their chunks take room, and no others. -/
structure Wrote (s : Store α) (coords : List (List Nat)) (s' : Store α) : Prop where
  chunkShape : s'.chunkShape = s.chunkShape
  extensible : s'.extensible = s.extensible
  fixed : s.extensible = false → s'.shape = s.shape
  idle : coords = [] → s' = s
  inside : ∀ c ∈ coords, List.Forall₂ (· < ·) c s'.shape.dims
  allocates : Allocates s.keys (fun key => ∃ c ∈ coords, List.zipWith (· / ·) c s.chunkShape = key) s'.keys

omit [Inhabited α] in
theorem wrote_nothing (s : Store α) : s.Wrote [] s :=
  ⟨rfl, rfl, fun _ => rfl, fun _ => rfl, nofun, allocates_none fun key => by simp⟩

section
variable {s : Store α} (h : s.Sound)
include h

theorem Sound.writeWithin_wrote {shape : Shape} (hrank : shape.dims.length = s.chunkShape.length) {slab : Slab}
    (hs : slab.Sized) {values : List α} {s' : Store α} (hw : s.writeWithin shape slab values = .ok s') :
    ∃ chunks, s' = { s with chunks } ∧ (slab.size = 0 → s' = s) ∧
      (∀ c ∈ slab.cells, List.Forall₂ (· < ·) c shape.dims) ∧
      Allocates s.keys (fun key => ∃ c ∈ slab.cells, List.zipWith (· / ·) c s.chunkShape = key) s'.keys := by
  obtain ⟨hc, hcount, runs, hruns, hrest⟩ := of_writeWithin hw
  have hin := (Slab.checkWithin_eq_ok hs.rank).mp hc
  obtain ⟨chunks, hsame, -⟩ := h.writeWithin_eq_ok hrank hs hc hcount
  refine ⟨chunks, Outcome.ok.inj (hw.symm.trans hsame), ?_, ?_, ?_⟩
  · intro hz
    rw [Slab.runs, if_pos hz] at hruns
    obtain rfl := Outcome.ok.inj hruns
    exact (Outcome.ok.inj hrest).symm
  · intro c hmem
    unfold Slab.cells at hmem
    by_cases hz : slab.size = 0
    · rw [if_pos hz] at hmem
      cases hmem
    · rw [if_neg hz] at hmem
      exact hin.coord_lt hmem
  · have hreach : (fun key => ∃ r ∈ runs, r.chunk = key) =
        fun key => ∃ c ∈ slab.cells, List.zipWith (· / ·) c s.chunkShape = key := by
      funext key
      rw [← hin.reaches_iff hrank.symm h.positive h.words]
      apply propext
      constructor
      · exact fun hr => ⟨runs, hruns, hr⟩
      · rintro ⟨runs', hruns', hr⟩
        obtain rfl := Outcome.ok.inj (hruns.symm.trans hruns')
        exact hr
    rw [← hreach]
    exact writeRuns_allocates hrest

theorem Sound.write_wrote {slab : Slab} (hs : slab.Sized) {values : List α} {s' : Store α}
    (hw : s.write slab values = .ok s') : s.Wrote slab.cells s' := by
  obtain ⟨chunks, hsame, hidle, hinside, hallocates⟩ := h.writeWithin_wrote h.rank.symm hs hw
  obtain rfl := hsame
  exact ⟨rfl, rfl, fun _ => rfl, fun he => hidle (hs.size_eq_zero he), hinside, hallocates⟩

theorem Sound.append_wrote (he : s.extensible = true) {values : List α} {s' : Store α}
    (hw : s.append values = .ok s') : s.Wrote (Slab.range s.shape.size values.length).cells s' := by
  obtain ⟨-, mid, hmid, rfl⟩ := of_append hw
  have hs := Slab.range_sized s.shape.size values.length
  have hrank : [s.shape.size + values.length].length = s.chunkShape.length := by
    rw [h.rank, h.linear he, List.length_singleton]
  obtain ⟨chunks, hsame, hidle, hinside, hallocates⟩ := h.writeWithin_wrote hrank hs hmid
  obtain rfl := hsame
  refine ⟨rfl, rfl, fun hfixed => absurd (he.symm.trans hfixed) nofun, ?_, hinside, hallocates⟩
  -- nothing is appended, so the grown shape is the old one
  intro hempty
  have hnone : values.length = 0 := hs.size_eq_zero hempty
  have hshape : Shape.rowMajor [s.shape.size + values.length] = s.shape := by
    rw [hnone, Nat.add_zero, ← h.dims_eq (h.linear he), ← h.shape_eq]
  have hchunks : { s with chunks } = s := hidle hnone
  rw [hshape]
  exact hchunks

end

end Store

/-! ## Calls -/

def Op.targets {α : Type} (size : Nat) : Op α → List (List Nat)
  | .read _ => []
  | .write slab _ => slab.cells
  | .append values => (Slab.range size values.length).cells

namespace Dataset

variable {α : Type} [Inhabited α]

/-- The coordinates that the successful calls of a history cover. -/
def covered : List (Op α) → Dataset α → List (List Nat)
  | [], _ => []
  | op :: ops, d =>
    match perform op d with
    | (.ok _, d') => op.targets d.size ++ covered ops d'
    | (_, d') => covered ops d'

section
variable {d d' : Dataset α} {call : Action (Dataset α) Unit}

omit [Inhabited α]

theorem answer_of_ok (h : call d = (.ok (), d')) :
    (do call; return [] : Action (Dataset α) (List α)) d = (.ok [], d') := by
  rw [Action.bind_apply, h]
  rfl

theorem answer_of_fail {e : Error} (h : call d = (.fail e, d')) :
    (do call; return [] : Action (Dataset α) (List α)) d = (.fail e, d') := by
  rw [Action.bind_apply, h]

end

section
variable {d : Dataset α} (h : d.Reached)
include h

theorem Reached.perform_cases {op : Op α} (hs : op.Sized) :
    (∃ values store, Dataset.perform op d = (.ok values, { d with store }) ∧
      d.store.Wrote (op.targets d.size) store) ∨
    ∃ e, Dataset.perform op d = (.fail e, d) := by
  cases op with
  | read slab =>
    rcases h.read_cases hs with ⟨-, values, hread⟩ | ⟨-, e, hread⟩
    · exact .inl ⟨values, d.store, congrArg (·, d) hread, d.store.wrote_nothing⟩
    · exact .inr ⟨e, congrArg (·, d) hread⟩
  | write slab values =>
    rcases h.sound.write_cases h.extent_lt hs values with ⟨-, chunks, hw⟩ | ⟨-, e, hw⟩
    · exact .inl ⟨[], _, answer_of_ok (write_of_ok hw), h.sound.write_wrote hs hw⟩
    · exact .inr ⟨_, answer_of_fail (write_of_fail hw)⟩
  | append values =>
    by_cases he : d.store.extensible = true
    · by_cases hv : d.size + values.length < 2 ^ 64
      · obtain ⟨chunks, hw, -⟩ := h.sound.append_eq_ok (h.sound.linear he) hv
        exact .inl ⟨[], _, answer_of_ok (append_of_ok he hw), h.sound.append_wrote he hw⟩
      · have hgrows : d.Grows := ⟨h.sound, he⟩
        exact .inr ⟨_, answer_of_fail (hgrows.append_eq_fail hv)⟩
    · exact .inr ⟨_, answer_of_fail (append_of_fixed he)⟩

theorem Reached.perform_idle {op : Op α} (hs : op.Sized)
    (hidle : (∀ values, (Dataset.perform op d).1 ≠ .ok values) ∨ op.targets d.size = []) :
    (Dataset.perform op d).2 = d := by
  rcases h.perform_cases hs with ⟨values, store, hok, hwrote⟩ | ⟨e, hfail⟩
  · rcases hidle with hne | hnone
    · exact absurd (congrArg Prod.fst hok) (hne values)
    · rw [hok, hwrote.idle hnone]
  · rw [hfail]

end

/-! ## Histories -/

theorem perform_allocates {d : Dataset α} (h : d.Reached) {op : Op α} (hs : op.Sized) (ops : List (Op α)) :
    ∃ coords, covered (op :: ops) d = coords ++ covered ops (perform op d).2 ∧
      d.store.Wrote coords (perform op d).2.store := by
  rcases h.perform_cases hs with ⟨values, store, hok, hwrote⟩ | ⟨e, hfail⟩
  · refine ⟨op.targets d.size, ?_, ?_⟩
    · rw [covered, hok]
    · rw [hok]
      exact hwrote
  · refine ⟨[], ?_, ?_⟩
    · rw [covered, hfail]
      rfl
    · rw [hfail]
      exact d.store.wrote_nothing

theorem Reached.each_allocates {d : Dataset α} (h : d.Reached) {ops : List (Op α)} (hs : ∀ op ∈ ops, op.Sized) :
    Store.Allocates d.store.keys
      (fun key => ∃ c ∈ covered ops d, List.zipWith (· / ·) c d.store.chunkShape = key)
      (Action.each Dataset.perform ops d).2.store.keys := by
  induction ops generalizing d with
  | nil => exact Store.allocates_none fun key => by simp [covered]
  | cons op ops ih =>
    rw [List.forall_mem_cons] at hs
    obtain ⟨coords, hcovered, hwrote⟩ := perform_allocates h hs.1 ops
    have hrest := ih (h.perform op hs.1) hs.2
    rw [hwrote.chunkShape] at hrest
    rw [Action.each_cons, hcovered]
    simp only [List.mem_append, or_and_right, exists_or]
    exact hwrote.allocates.trans hrest

/-! ## One piece -/

/-- A dataset in one piece. Its chunk has room for all its elements, so every chunk that takes room is the first. -/
structure OnePiece (d : Dataset α) : Prop where
  extensible : d.store.extensible = false
  chunkShape : d.store.chunkShape = d.shape.dims.map (max · 1)
  first : ∀ key ∈ d.store.keys, key = List.replicate d.shape.rank 0

theorem extensibleLayout_ne_contiguous {chunkLen : UInt64} {level : UInt8} {layout : Layout}
    (h : Catalog.extensibleLayout chunkLen level = .ok layout) : layout ≠ .contiguous := by
  obtain ⟨l, -, h⟩ := Outcome.bind_eq_ok.mp h
  cases l with
  | contiguous =>
    obtain rfl := Outcome.ok.inj h
    exact nofun
  | chunked extents filters =>
    obtain rfl := Outcome.ok.inj h
    exact nofun

omit [Inhabited α] in
theorem New.keys_eq {d : Dataset α} (h : d.New) : d.store.keys = [] := by
  cases h with
  | fixed _ _ hstore =>
    obtain ⟨chunkLen, rfl⟩ := Store.create_eq_ok hstore
    rfl
  | growing _ _ _ hstore =>
    obtain ⟨chunkLen, rfl⟩ := Store.create_eq_ok hstore
    rfl

omit [Inhabited α] in
theorem New.onePiece {d : Dataset α} (h : d.New) (hc : d.layout = .contiguous) : d.OnePiece := by
  have hkeys := h.keys_eq
  cases h with
  | fixed _ _ hstore =>
    obtain ⟨chunkLen, rfl⟩ := Store.create_eq_ok hstore
    obtain rfl := hc
    exact ⟨rfl, rfl, fun key hkey => absurd (hkeys ▸ hkey) List.not_mem_nil⟩
  | growing _ hlayout _ hstore =>
    obtain ⟨chunkLen, rfl⟩ := Store.create_eq_ok hstore
    exact absurd hc (extensibleLayout_ne_contiguous hlayout)

theorem div_max_one {c dims : List Nat} (h : List.Forall₂ (· < ·) c dims) :
    List.zipWith (· / ·) c (dims.map (max · 1)) = List.replicate dims.length 0 := by
  induction h with
  | nil => rfl
  | @cons i d c dims hi _ ih =>
    rw [List.map_cons, List.zipWith_cons_cons, ih, Nat.div_eq_of_lt (Nat.lt_of_lt_of_le hi (Nat.le_max_left d 1)),
      List.length_cons, List.replicate_succ]

theorem OnePiece.perform {d : Dataset α} (h : d.OnePiece) (hd : d.Reached) {op : Op α} (hs : op.Sized) :
    (perform op d).2.OnePiece := by
  rcases hd.perform_cases hs with ⟨values, store, hok, hwrote⟩ | ⟨e, hfail⟩
  · have hshape := hwrote.fixed h.extensible
    rw [hok]
    refine ⟨hwrote.extensible.trans h.extensible, ?_, ?_⟩
    · show store.chunkShape = store.shape.dims.map (max · 1)
      rw [hwrote.chunkShape, hshape]
      exact h.chunkShape
    · intro key hkey
      show key = List.replicate store.shape.dims.length 0
      rcases (hwrote.allocates.mem key).mp hkey with hold | ⟨c, hc, rfl⟩
      · rw [hshape]
        exact h.first key hold
      · have hlt := hwrote.inside c hc
        rw [hshape] at hlt ⊢
        rw [h.chunkShape]
        exact div_max_one hlt
  · rw [hfail]
    exact h

theorem Reached.each {d : Dataset α} (h : d.Reached) {ops : List (Op α)} (hs : ∀ op ∈ ops, op.Sized) :
    (Action.each Dataset.perform ops d).2.Reached :=
  Action.each_keeps_of_mem (fun op hop _ hd => hd.perform op (hs op hop)) h

theorem Reached.keys_nodup {d : Dataset α} (h : d.Reached) : d.store.keys.Nodup := by
  obtain ⟨e, ops, he, hs, rfl⟩ := h
  exact (he.reached.each_allocates hs).nodup (he.keys_eq ▸ List.nodup_nil)

theorem Reached.onePiece {d : Dataset α} (h : d.Reached) (hc : d.layout = .contiguous) : d.OnePiece := by
  obtain ⟨e, ops, he, hs, rfl⟩ := h
  have hlayout : ∀ op ∈ ops, ∀ d : Dataset α, d.layout = e.layout → (Dataset.perform op d).2.layout = e.layout := by
    intro op _ d hd
    rw [layout_perform, hd]
  rw [Action.each_keeps_of_mem hlayout rfl] at hc
  refine (Action.each_keeps_of_mem (I := fun d : Dataset α => d.Reached ∧ d.OnePiece) ?_
    ⟨he.reached, he.onePiece hc⟩).2
  intro op hop d hd
  exact ⟨hd.1.perform op (hs op hop), hd.2.perform hd.1 (hs op hop)⟩

theorem Reached.allocatedChunks_le_one {d : Dataset α} (h : d.Reached) (hc : d.layout = .contiguous) :
    d.store.allocatedChunks ≤ 1 := by
  have hkeys := List.eq_replicate_of_mem (h.onePiece hc).first
  have hn := h.keys_nodup
  rw [hkeys, List.nodup_replicate] at hn
  rwa [Store.length_keys] at hn

/-! ## The number of chunks -/

/-- A dataset takes room for as many chunks as the coordinates that its history covers lie in, also if it is written in
place. Calls that are refused and calls that cover nothing change nothing at all, and one piece is one chunk. -/
theorem allocation_exact :
    (∀ (d : Dataset α) (ops : List (Op α)), d.New → (∀ op ∈ ops, op.Sized) →
      let positions := (covered ops d).map fun c => List.zipWith (· / ·) c d.store.chunkShape
      (Action.each perform ops d).2.store.allocatedChunks = positions.dedup.length ∧
        (Action.each performInPlace ops d).2.store.allocatedChunks = positions.dedup.length) ∧
    ∀ d : Dataset α, d.Reached →
      (∀ op : Op α, op.Sized → (∀ values, (perform op d).1 ≠ .ok values) ∨ op.targets d.size = [] →
        (perform op d).2 = d ∧ (performInPlace op d).2 = d) ∧
      (d.layout = .contiguous → d.store.allocatedChunks ≤ 1) := by
  refine ⟨?_, fun d hd => ⟨fun op hs hidle => ?_, hd.allocatedChunks_le_one⟩⟩
  · intro d ops hd hs positions
    have hallocates := hd.reached.each_allocates hs
    rw [hd.keys_eq] at hallocates
    have hperm : (Action.each perform ops d).2.store.keys.Perm positions.dedup := by
      apply (List.perm_ext_iff_of_nodup (hallocates.nodup List.nodup_nil) positions.nodup_dedup).mpr
      intro key
      rw [hallocates.mem, List.mem_dedup, List.mem_map]
      simp
    have hcount := hperm.length_eq
    rw [Store.length_keys] at hcount
    rw [hd.reached.each_performInPlace hs]
    exact ⟨hcount, hcount⟩
  · have hsame := hd.perform_idle hs hidle
    rw [performInPlace_eq hd.sound hs]
    exact ⟨hsame, hsame⟩

/-- Two writes that meet in two chunks, one that is refused, one of nothing and a read. Of the four chunks of the
array the last stays without room. In one piece there is one chunk after both writes. -/
theorem allocation_exact_three_by_three :
    let calls : List (Op Nat) :=
      [.write ⟨[0, 1], [2, 2], 4⟩ [1, 2, 3, 4], .write ⟨[1, 0], [2, 2], 4⟩ [5, 6, 7, 8],
        .write ⟨[2, 2], [1, 2], 2⟩ [9, 9], .write ⟨[2, 2], [1, 0], 0⟩ [], .read ⟨[2, 2], [1, 1], 1⟩]
    (∃ d : Dataset Nat, d.New ∧ d.shape.dims = [3, 3] ∧ d.store.chunkShape = [2, 2] ∧
      (Action.each performInPlace calls d).2.store.allocatedChunks = 3 ∧
      (performInPlace (.write ⟨[2, 2], [1, 2], 2⟩ [9, 9]) d).2 = d) ∧
    ∃ d : Dataset Nat, d.Reached ∧ d.layout = .contiguous ∧ d.shape.dims = [3, 3] ∧
      d.read ⟨[1, 0], [1, 3], 3⟩ = .ok [5, 6, 4] ∧ d.store.allocatedChunks ≤ 1 := by
  intro calls
  have hshape (chunk : List UInt64) (level : UInt8) :
      DatasetConfig.shape ⟨[3, 3], chunk, level, false⟩ = .ok (Shape.rowMajor [3, 3]) := rfl
  have hlayout : DatasetConfig.layout ⟨[3, 3], [2, 2], 1, false⟩ =
      .ok (.chunked [2, 2] [.shuffle, .deflate 1]) := by decide
  have hchunked : New (α := Nat)
      ⟨[], ⟨Shape.rowMajor [3, 3], .chunked [2, 2] [.shuffle, .deflate 1], false, [2, 2], 4, []⟩⟩ :=
    .fixed (hshape [2, 2] 1) hlayout rfl
  have hpiece : New (α := Nat) ⟨[], ⟨Shape.rowMajor [3, 3], .contiguous, false, [3, 3], 9, []⟩⟩ :=
    .fixed (hshape [] 0) rfl rfl
  have hs : ∀ op ∈ calls, op.Sized := by
    simp only [calls, List.forall_mem_cons, List.not_mem_nil, false_implies, implies_true, and_true]
    exact ⟨⟨rfl, .inl rfl⟩, ⟨rfl, .inl rfl⟩, ⟨rfl, .inl rfl⟩, ⟨rfl, .inl rfl⟩, ⟨rfl, .inl rfl⟩⟩
  have hreached := Reached.each hpiece.reached hs
  obtain ⟨hcount, hcalls⟩ := allocation_exact (α := Nat)
  refine ⟨⟨_, hchunked, rfl, rfl, (hcount _ calls hchunked hs).2.trans (by decide), ?_⟩,
    _, hreached, ?_, ?_, ?_, (hcalls _ hreached).2 ?_⟩
  · refine ((hcalls _ hchunked.reached).1 _ (hs _ (by simp [calls])) (.inl fun values hok => ?_)).2
    have hnone := congrArg Outcome.value? hok
    cases hnone
  all_goals rfl

end Dataset

end Ragged

import Mathlib.Data.List.Nodup
import Ragged.Proofs.Runs
import Ragged.Store

/-!
# Stores as functions of coordinates

`Store.value` is the element that a store holds at a coordinate. Reading a slab lists the values of its
coordinates, writing one replaces them and no others, and appending puts values at new coordinates. `Sound` is
what every store keeps to.
-/

namespace Ragged

/-! ## Values by their keys -/

section
variable {κ μ α : Type} [DecidableEq κ] [BEq κ] [LawfulBEq κ] [DecidableEq μ] [BEq μ] [LawfulBEq μ]

theorem lookup_cons_ite (k key : κ) (v : α) (l : List (κ × α)) :
    ((key, v) :: l).lookup k = if k = key then some v else l.lookup k := by
  rw [List.lookup_cons]
  by_cases h : k = key
  · simp [h]
  · rw [beq_eq_false_iff_ne.mpr h, if_neg h]

theorem lookup_zip_eq_none {k : κ} {keys : List κ} {values : List α} (h : k ∉ keys) :
    (keys.zip values).lookup k = none := by
  induction keys generalizing values with
  | nil => rfl
  | cons key keys ih =>
    cases values with
    | nil => rfl
    | cons v values =>
      obtain ⟨hk, hks⟩ := List.ne_and_not_mem_of_not_mem_cons h
      rw [List.zip_cons_cons, lookup_cons_ite, if_neg hk, ih hks]

theorem lookup_zip_map {f : κ → μ} {k : κ} {keys : List κ} {values : List α}
    (h : ∀ key ∈ keys, f k = f key → k = key) :
    ((keys.map f).zip values).lookup (f k) = (keys.zip values).lookup k := by
  induction keys generalizing values with
  | nil => rfl
  | cons key keys ih =>
    cases values with
    | nil => rfl
    | cons v values =>
      rw [List.forall_mem_cons] at h
      have hkey : f k = f key ↔ k = key := ⟨h.1, congrArg f⟩
      rw [List.map_cons, List.zip_cons_cons, List.zip_cons_cons, lookup_cons_ite, lookup_cons_ite, ih h.2]
      simp only [hkey]

theorem lookup_zip_map_self {g : κ → α} {k : κ} {keys : List κ} (h : k ∈ keys) :
    (keys.zip (keys.map g)).lookup k = some (g k) := by
  induction keys with
  | nil => cases h
  | cons key keys ih =>
    rw [List.map_cons, List.zip_cons_cons, lookup_cons_ite]
    by_cases hk : k = key
    · rw [if_pos hk, hk]
    · rw [if_neg hk]
      exact ih ((List.mem_cons.mp h).resolve_left hk)

theorem map_lookup_zip {g : κ → α} {keys : List κ} {values : List α} (hn : keys.Nodup)
    (hl : keys.length = values.length) :
    keys.map (fun k => ((keys.zip values).lookup k).getD (g k)) = values := by
  induction keys generalizing values with
  | nil => exact (List.eq_nil_of_length_eq_zero hl.symm).symm
  | cons key keys ih =>
    obtain ⟨v, values, rfl⟩ := List.exists_cons_of_length_eq_add_one hl.symm
    obtain ⟨hkey, hkeys⟩ := List.nodup_cons.mp hn
    have hrest : keys.map (fun k => (((key, v) :: keys.zip values).lookup k).getD (g k)) =
        keys.map fun k => ((keys.zip values).lookup k).getD (g k) := by
      apply List.map_congr_left
      intro k hk
      have hne : k ≠ key := by rintro rfl; exact hkey hk
      rw [lookup_cons_ite, if_neg hne]
    rw [List.map_cons, List.zip_cons_cons, lookup_cons_ite, if_pos rfl, Option.getD_some, hrest,
      ih hkeys (Nat.succ.inj hl)]

theorem lookup_of_mem {k : κ} {v : α} {l : List (κ × α)} (hn : (l.map Prod.fst).Nodup) (h : (k, v) ∈ l) :
    l.lookup k = some v := by
  induction l with
  | nil => cases h
  | cons entry l ih =>
    obtain ⟨key, old⟩ := entry
    obtain ⟨hkey, hn⟩ := List.nodup_cons.mp hn
    rw [lookup_cons_ite]
    rcases List.mem_cons.mp h with heq | hrest
    · obtain ⟨rfl, rfl⟩ := Prod.mk.inj heq
      exact if_pos rfl
    · have hne : k ≠ key := by
        rintro rfl
        exact hkey (List.mem_map.mpr ⟨_, hrest, rfl⟩)
      rw [if_neg hne, ih hn hrest]

theorem lookup_append_getD {k : κ} {keys keys' : List κ} {values values' : List α} (default : α)
    (h : (keys ++ keys').Nodup) :
    ((keys'.zip values').lookup k).getD (((keys.zip values).lookup k).getD default) =
      ((keys.zip values ++ keys'.zip values').lookup k).getD default := by
  rw [List.lookup_append]
  by_cases hk : k ∈ keys'
  · have hn : k ∉ keys := fun hm => (List.nodup_append.mp h).2.2 k hm k hk rfl
    rw [lookup_zip_eq_none hn]
    simp
  · rw [lookup_zip_eq_none hk]
    simp

end

namespace Store

variable {α : Type}

/-- What every store keeps to: its chunks have no zero extent, and every chunk that was written has all its
cells. -/
structure Sound (s : Store α) : Prop where
  shape : Shape.ofDims s.shape.dims = .ok s.shape
  rank : s.chunkShape.length = s.shape.dims.length
  positive : 0 ∉ s.chunkShape
  words : s.chunkShape.prod < 2 ^ 64
  chunkLen : s.chunkLen = s.chunkShape.prod
  layout : ∀ chunk, s.layout.chunk? = some chunk → chunk = s.chunkShape
  linear : s.extensible = true → s.shape.dims.length = 1
  filled : ∀ key cells, s.chunks.lookup key = some cells → cells.size = s.chunkLen

theorem Sound.shape_eq {s : Store α} (h : s.Sound) : s.shape = Shape.rowMajor s.shape.dims :=
  (Shape.ofDims_eq_ok h.shape).1

theorem Sound.prod_lt {s : Store α} (h : s.Sound) : s.shape.dims.prod < 2 ^ 64 :=
  (Shape.ofDims_eq_ok h.shape).2

theorem Sound.size_eq {s : Store α} (h : s.Sound) : s.shape.size = s.shape.dims.prod := by
  rw [h.shape_eq]
  rfl

theorem Sound.size_lt {s : Store α} (h : s.Sound) : s.shape.size < 2 ^ 64 := by
  rw [h.size_eq]
  exact h.prod_lt

theorem Sound.dims_eq {s : Store α} (h : s.Sound) (hlin : s.shape.rank = 1) : s.shape.dims = [s.shape.size] := by
  obtain ⟨n, hn⟩ := List.length_eq_one_iff.mp hlin
  rw [h.size_eq, hn, List.prod_singleton]

/-! ## Chunks -/

theorem size_overwrite (values : List α) (cells : Array α) (offset : Nat) :
    (overwrite cells offset values).size = cells.size := by
  induction values generalizing cells offset with
  | nil => rfl
  | cons v values ih => rw [overwrite, ih, Array.size_setIfInBounds]

theorem getElem?_overwrite (values : List α) (cells : Array α) (offset i : Nat)
    (h : offset + values.length ≤ cells.size) :
    (overwrite cells offset values)[i]? = if offset ≤ i then values[i - offset]?.or cells[i]? else cells[i]? := by
  induction values generalizing cells offset with
  | nil => simp [overwrite]
  | cons v values ih =>
    rw [List.length_cons] at h
    rw [overwrite, ih _ _ (by rw [Array.size_setIfInBounds]; omega), Array.getElem?_setIfInBounds]
    rcases Nat.lt_trichotomy i offset with hi | hi | hi
    · rw [if_neg (by omega), if_neg (by omega), if_neg (by omega)]
    · subst hi
      rw [if_neg (by omega), if_pos rfl, if_pos (by omega), if_pos (Nat.le_refl _), Nat.sub_self]
      rfl
    · rw [if_pos (by omega), if_neg (by omega), if_pos (by omega),
        show i - offset = i - (offset + 1) + 1 by omega, List.getElem?_cons_succ]

theorem lookup_setChunk (key k : List Nat) (cells : Array α) (chunks : List (List Nat × Array α)) :
    (setChunk key cells chunks).lookup k = if k = key then some cells else chunks.lookup k := by
  induction chunks with
  | nil => exact lookup_cons_ite k key cells []
  | cons chunk chunks ih =>
    obtain ⟨k', old⟩ := chunk
    unfold setChunk
    by_cases hk' : k' = key
    · subst hk'
      rw [if_pos rfl, lookup_cons_ite, lookup_cons_ite]
      by_cases hk : k = k' <;> simp [hk]
    · rw [if_neg hk', lookup_cons_ite, lookup_cons_ite, ih]
      by_cases hk : k = k'
      · rw [if_pos hk, if_pos hk, if_neg (hk ▸ hk')]
      · rw [if_neg hk, if_neg hk]

theorem Sound.setChunk {s : Store α} (h : s.Sound) (key : List Nat) {cells : Array α}
    (hsize : cells.size = s.chunkLen) : Sound { s with chunks := Store.setChunk key cells s.chunks } := by
  refine { h with filled := ?_ }
  intro k cells' hl
  dsimp only at hl ⊢
  rw [lookup_setChunk] at hl
  by_cases hk : k = key
  · rw [if_pos hk] at hl
    rw [← Option.some.inj hl, hsize]
  · rw [if_neg hk] at hl
    exact h.filled k cells' hl

theorem lookup_zip_range' (key : List Nat) (p : List Nat × Nat) (values : List α) (offset : Nat) :
    (((List.range' offset values.length).map (key, ·)).zip values).lookup p =
      if p.1 = key ∧ offset ≤ p.2 then values[p.2 - offset]? else none := by
  induction values generalizing offset with
  | nil => simp
  | cons v values ih =>
    rw [List.length_cons, List.range'_succ, List.map_cons, List.zip_cons_cons, lookup_cons_ite, ih (offset + 1)]
    by_cases hk : p.1 = key
    · rcases Nat.lt_trichotomy p.2 offset with hi | hi | hi
      · rw [if_neg fun e => by rw [e] at hi; exact Nat.lt_irrefl _ hi, if_neg (by omega), if_neg (by omega)]
      · rw [if_pos (Prod.ext hk hi), if_pos ⟨hk, by omega⟩, hi, Nat.sub_self]
        rfl
      · rw [if_neg fun e => by rw [e] at hi; exact Nat.lt_irrefl _ hi, if_pos ⟨hk, by omega⟩,
          if_pos ⟨hk, by omega⟩, show p.2 - offset = p.2 - (offset + 1) + 1 by omega, List.getElem?_cons_succ]
    · rw [if_neg fun e => hk (congrArg Prod.fst e), if_neg fun e => hk e.1, if_neg fun e => hk e.1]

variable [Inhabited α]

def cell (s : Store α) (p : List Nat × Nat) : α :=
  match s.chunks.lookup p.1 with
  | none => default
  | some cells => cells[p.2]?.getD default

def value (s : Store α) (coord : List Nat) : α := s.cell (place s.chunkShape coord)

/-! ## Creation -/

theorem create_sound {shape : Shape} {layout : Layout} {extensible : Bool} {s : Store α}
    (hshape : Shape.ofDims shape.dims = .ok shape)
    (hpos : ∀ chunk, layout.chunk? = some chunk → 0 ∉ chunk)
    (hlin : extensible = true → shape.dims.length = 1) (h : create shape layout extensible = .ok s) :
    s.Sound ∧ s.shape = shape ∧ s.extensible = extensible ∧ ∀ c, s.value c = default := by
  simp only [create, Outcome.require] at h
  split at h
  · rename_i hrank
    rw [Outcome.ok_bind] at h
    obtain ⟨chunk, hchunk, h⟩ := Outcome.bind_eq_ok.mp h
    obtain rfl := Outcome.ok.inj h
    obtain ⟨rfl, hwords⟩ := Shape.ofDims_eq_ok hchunk
    refine ⟨⟨hshape, hrank, ?_, hwords, rfl, ?_, hlin, ?_⟩, rfl, rfl, fun c => rfl⟩
    · cases hc : layout.chunk? with
      | none => simp
      | some chunk => exact hpos chunk hc
    · intro chunk hc
      simp only [hc, Option.getD_some]
    · intro key cells hl
      cases hl
  · cases h

section
omit [Inhabited α]

theorem create_eq_ok {shape : Shape} {layout : Layout} {extensible : Bool} {s : Store α}
    (h : create shape layout extensible = .ok s) :
    ∃ chunkLen, s = ⟨shape, layout, extensible, layout.chunk?.getD (shape.dims.map (max · 1)), chunkLen, []⟩ := by
  obtain ⟨_, -, h⟩ := Outcome.bind_eq_ok.mp h
  obtain ⟨chunk, -, h⟩ := Outcome.bind_eq_ok.mp h
  exact ⟨chunk.size, (Outcome.ok.inj h).symm⟩

theorem extensible_create {shape : Shape} {layout : Layout} {extensible : Bool} {s : Store α}
    (h : create shape layout extensible = .ok s) : s.extensible = extensible := by
  obtain ⟨chunkLen, rfl⟩ := create_eq_ok h
  rfl

end

/-! ## Reading -/

theorem Sound.readRun_eq_ok {s : Store α} (h : s.Sound) {r : Run} (hr : r.Fits s.chunkShape) :
    s.readRun r = .ok (r.places.map s.cell) := by
  unfold readRun
  cases hl : s.chunks.lookup r.chunk with
  | none =>
    have hcells : r.places.map s.cell = List.replicate r.length default := by
      rw [List.eq_replicate_iff]
      refine ⟨by simp [Run.places], ?_⟩
      intro b hb
      obtain ⟨p, hp, rfl⟩ := List.mem_map.mp hb
      obtain ⟨i, _, rfl⟩ := List.mem_map.mp hp
      simp [cell, hl]
    rw [hcells]
  | some cells =>
    have hsize := h.filled _ _ hl
    have hfit := hr.2
    rw [h.chunkLen] at hsize
    dsimp only
    rw [if_pos (by omega)]
    congr 1
    apply List.ext_getElem
    · simp [Run.places]
      omega
    intro i hi hi'
    have hi₂ : i < r.length := by simpa [Run.places] using hi'
    have hlt : r.offset + i < cells.size := by omega
    simp [Run.places, cell, hl, hlt]

theorem Sound.read_eq {s : Store α} (h : s.Sound) {slab : Slab} (hs : slab.starts.length = slab.counts.length) :
    s.read slab = (do slab.checkWithin s.shape; return slab.cells.map s.value) := by
  unfold read
  cases hc : slab.checkWithin s.shape with
  | ok u =>
    have hin := (Slab.checkWithin_eq_ok hs).mp hc
    have hrank : s.chunkShape.length = slab.starts.length := by rw [h.rank, hin.length_eq.2]
    obtain ⟨runs, hruns, hplaces, hfits⟩ := Slab.runs_eq_ok hin hrank h.positive h.words
    simp only [Outcome.ok_bind, hruns, Outcome.pure_eq,
      Outcome.mapM_eq_ok fun r hr => h.readRun_eq_ok (hfits r hr)]
    rw [← List.flatMap_def, ← List.map_flatMap, hplaces, List.map_map]
    rfl
  | fail e => rfl
  | trap => rfl

/-! ## Writing -/

theorem cell_eq (s : Store α) (p : List Nat × Nat) :
    s.cell p = ((s.chunks.lookup p.1).getD (Array.replicate s.chunkLen default))[p.2]?.getD default := by
  unfold cell
  cases s.chunks.lookup p.1 with
  | none => by_cases hp : p.2 < s.chunkLen <;> simp [hp]
  | some cells => rfl

theorem Sound.size_chunk {s : Store α} (h : s.Sound) (key : List Nat) :
    ((s.chunks.lookup key).getD (Array.replicate s.chunkLen default)).size = s.chunkLen := by
  cases hl : s.chunks.lookup key with
  | none => simp
  | some cells => simpa using h.filled key cells hl

theorem cell_setChunk (s : Store α) (key : List Nat) (cells : Array α) (p : List Nat × Nat) :
    cell { s with chunks := setChunk key cells s.chunks } p =
      if p.1 = key then cells[p.2]?.getD default else s.cell p := by
  unfold cell
  dsimp only
  rw [lookup_setChunk]
  by_cases hk : p.1 = key
  · simp [hk]
  · simp [hk]

theorem Sound.writeRun_eq_ok {s : Store α} (h : s.Sound) {r : Run} (hr : r.Fits s.chunkShape)
    {values : List α} (hv : values.length = r.length) :
    ∃ chunks, s.writeRun r values = .ok { s with chunks } ∧ Sound { s with chunks } ∧
      ∀ p, cell { s with chunks } p = ((r.places.zip values).lookup p).getD (s.cell p) := by
  have hfit : r.offset + values.length ≤ s.chunkLen := by
    rw [hv, h.chunkLen]
    exact hr.2
  obtain ⟨cells, hcells⟩ : ∃ cells, cells = (s.chunks.lookup r.chunk).getD (Array.replicate s.chunkLen default) :=
    ⟨_, rfl⟩
  have hsize : cells.size = s.chunkLen := hcells ▸ h.size_chunk r.chunk
  refine ⟨Store.setChunk r.chunk (overwrite cells r.offset values) s.chunks, ?_, ?_, ?_⟩
  · unfold writeRun
    rw [← hcells]
    exact if_pos ⟨hv, by omega⟩
  · exact h.setChunk r.chunk (by rw [size_overwrite, hsize])
  · intro p
    have hplaces : r.places = (List.range' r.offset values.length).map (r.chunk, ·) := by rw [hv]; rfl
    rw [cell_setChunk, hplaces, lookup_zip_range']
    by_cases hk : p.1 = r.chunk
    · rw [if_pos hk, getElem?_overwrite _ _ _ _ (by omega), cell_eq, hk, ← hcells]
      by_cases ho : r.offset ≤ p.2
      · rw [if_pos ho, if_pos ⟨rfl, ho⟩, Option.getD_or]
      · rw [if_neg ho, if_neg fun e => ho e.2]
        rfl
    · rw [if_neg hk, if_neg fun e => hk e.1]
      rfl

theorem Sound.writeRuns_eq_ok {runs : List Run} {s : Store α} {values : List α} (h : s.Sound)
    (hf : ∀ r ∈ runs, r.Fits s.chunkShape) (hn : (runs.flatMap Run.places).Nodup)
    (hl : values.length = (runs.flatMap Run.places).length) :
    ∃ chunks, s.writeRuns runs values = .ok { s with chunks } ∧ Sound { s with chunks } ∧
      ∀ p, cell { s with chunks } p = (((runs.flatMap Run.places).zip values).lookup p).getD (s.cell p) := by
  induction runs generalizing s values with
  | nil => exact ⟨s.chunks, rfl, h, fun _ => rfl⟩
  | cons r runs ih =>
    rw [List.forall_mem_cons] at hf
    rw [List.flatMap_cons] at hn hl
    have hplaces : r.places.length = r.length := by simp [Run.places]
    rw [List.length_append, hplaces] at hl
    obtain ⟨chunks, hr, hsound, hcell⟩ := h.writeRun_eq_ok hf.1
      (show (values.take r.length).length = r.length by rw [List.length_take]; omega)
    obtain ⟨chunks', hrs, hsound', hcell'⟩ := ih hsound hf.2 (List.nodup_append.mp hn).2.1
      (show (values.drop r.length).length = _ by rw [List.length_drop]; omega)
    refine ⟨chunks', ?_, hsound', ?_⟩
    · rw [writeRuns, hr, Outcome.ok_bind, hrs]
    · intro p
      have hzip : (r.places ++ runs.flatMap Run.places).zip values =
          r.places.zip (values.take r.length) ++ (runs.flatMap Run.places).zip (values.drop r.length) := by
        rw [← List.zip_append (by rw [hplaces, List.length_take]; omega), List.take_append_drop]
      rw [hcell', hcell, lookup_append_getD _ hn, List.flatMap_cons, hzip]

theorem length_of_mem_cells {slab : Slab} {dims c : List Nat} (hin : Slab.Inside slab.starts slab.counts dims)
    (hc : c ∈ slab.cells) : c.length = dims.length := by
  unfold Slab.cells at hc
  by_cases hz : slab.size = 0
  · simp [hz] at hc
  · rw [if_neg hz] at hc
    exact (hin.coord_lt hc).length_eq

/-- Writing inside a shape of the rank of the store gives every coordinate of the slab its value. -/
theorem Sound.writeWithin_eq_ok {s : Store α} (h : s.Sound) {shape : Shape}
    (hrank : shape.dims.length = s.chunkShape.length) {slab : Slab} (hs : slab.Sized) {values : List α}
    (hc : slab.checkWithin shape = .ok ()) (hv : slab.size = values.length) :
    ∃ chunks, s.writeWithin shape slab values = .ok { s with chunks } ∧ Sound { s with chunks } ∧
      ∀ c, c.length = s.chunkShape.length →
        value { s with chunks } c = ((slab.cells.zip values).lookup c).getD (s.value c) := by
  have hin := (Slab.checkWithin_eq_ok hs.rank).mp hc
  have hlen : ∀ c ∈ slab.cells, c.length = s.chunkShape.length := by
    intro c hc
    rw [length_of_mem_cells hin hc, hrank]
  obtain ⟨runs, hruns, hplaces, hfits⟩ :=
    Slab.runs_eq_ok hin (by rw [← hrank, hin.length_eq.2]) h.positive h.words
  have hn : (runs.flatMap Run.places).Nodup := by
    rw [hplaces]
    apply List.Nodup.map_on _ (Slab.cells_nodup slab)
    intro c hc c' hc'
    exact place_inj h.positive (hlen c hc) (hlen c' hc')
  obtain ⟨chunks, hw, hsound, hcell⟩ := h.writeRuns_eq_ok hfits hn
    (show values.length = _ by rw [hplaces, List.length_map, hs.length_cells, hv])
  refine ⟨chunks, ?_, hsound, ?_⟩
  · simp [writeWithin, hc, Outcome.require, hv, hruns, hw]
  · intro c hc
    have := hcell (place s.chunkShape c)
    rw [hplaces, lookup_zip_map fun c' hc' => place_inj h.positive hc (hlen c' hc')] at this
    exact this

theorem of_writeWithin {s s' : Store α} {shape : Shape} {slab : Slab} {values : List α}
    (h : s.writeWithin shape slab values = .ok s') :
    slab.checkWithin shape = .ok () ∧ slab.size = values.length ∧
      ∃ runs, slab.runs s.chunkShape = .ok runs ∧ s.writeRuns runs values = .ok s' := by
  obtain ⟨⟨⟩, hc, h⟩ := Outcome.bind_eq_ok.mp h
  obtain ⟨⟨⟩, hv, h⟩ := Outcome.bind_eq_ok.mp h
  exact ⟨hc, Outcome.require_eq_ok.mp hv, Outcome.bind_eq_ok.mp h⟩

theorem writeWithin_of_miscount {s : Store α} {shape : Shape} {slab : Slab} {values : List α}
    (hc : slab.checkWithin shape = .ok ()) (hv : slab.size ≠ values.length) :
    s.writeWithin shape slab values =
      .fail (.shapeMismatch s!"{slab.size} values" s!"{values.length} values") := by
  rw [writeWithin, hc, Outcome.ok_bind, Outcome.require, if_neg hv, Outcome.fail_bind]

theorem Sound.append_eq_ok {s : Store α} (h : s.Sound) (hlin : s.shape.rank = 1) {values : List α}
    (hv : s.shape.size + values.length < 2 ^ 64) :
    ∃ chunks, s.append values = .ok { s with chunks, shape := Shape.rowMajor [s.shape.size + values.length] } ∧
      Sound { s with chunks, shape := Shape.rowMajor [s.shape.size + values.length] } ∧
      ∀ c, c.length = s.chunkShape.length → value { s with chunks } c =
        (((Slab.range s.shape.size values.length).cells.zip values).lookup c).getD (s.value c) := by
  have hgrown : Shape.ofDims [s.shape.size + values.length] =
      .ok (Shape.rowMajor [s.shape.size + values.length]) := by
    have hmul : Word.mul? 1 (s.shape.size + values.length) = some (s.shape.size + values.length) := by
      rw [Word.mul?_eq_some (by omega), Nat.one_mul]
    simp [Shape.ofDims, Shape.strides?, hmul, Shape.rowMajor, Shape.stridesOf]
  have hc : (Slab.range s.shape.size values.length).checkWithin
      (Shape.rowMajor [s.shape.size + values.length]) = .ok () :=
    (Slab.checkWithin_eq_ok rfl).mpr (.cons hv (Nat.le_refl _) .nil)
  have hrank : s.chunkShape.length = 1 := h.rank.trans hlin
  have hgrown' : (Shape.rowMajor [s.shape.size + values.length]).dims.length = s.chunkShape.length := hrank.symm
  obtain ⟨chunks, hw, hsound, hvalue⟩ := h.writeWithin_eq_ok hgrown' (Slab.range_sized _ _) hc rfl
  refine ⟨chunks, ?_, ?_, hvalue⟩
  · unfold append
    rw [Word.add?_eq_some hv]
    simp only [hgrown, Outcome.ok_bind, hw, Outcome.pure_eq]
  · exact { hsound with shape := hgrown, rank := hrank, linear := fun _ => rfl }

theorem append_eq_fail {s : Store α} {values : List α} (hv : ¬ s.shape.size + values.length < 2 ^ 64) :
    s.append values =
      .fail (.invalidArgument s!"cannot grow {s.shape.size} elements past {Word.last}") := by
  unfold append
  rw [Word.add?_eq_none hv]

theorem of_append {s s' : Store α} {values : List α} (h : s.append values = .ok s') :
    s.shape.size + values.length < 2 ^ 64 ∧
      ∃ written, s.writeWithin (Shape.rowMajor [s.shape.size + values.length])
        (Slab.range s.shape.size values.length) values = .ok written ∧
      s' = { written with shape := Shape.rowMajor [s.shape.size + values.length] } := by
  by_cases hv : s.shape.size + values.length < 2 ^ 64
  · unfold append at h
    rw [Word.add?_eq_some hv] at h
    obtain ⟨grown, hgrown, h⟩ := Outcome.bind_eq_ok.mp h
    obtain ⟨written, hwritten, h⟩ := Outcome.bind_eq_ok.mp h
    obtain ⟨rfl, -⟩ := Shape.ofDims_eq_ok hgrown
    exact ⟨hv, written, hwritten, (Outcome.ok.inj h).symm⟩
  · rw [append_eq_fail hv] at h
    cases h

end Store

end Ragged

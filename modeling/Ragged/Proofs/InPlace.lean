import Ragged.Proofs.Dataset

/-!
# Writing in place

The runs of a slab can be written as soon as each of them is found. Then a chunk has taken room and cells are changed
before it is known whether there is a next run, and what is done stays done if the call stops half-way. On a dataset in
use this never happens: writing and appending in place do what `write` and `append` do, which change all or nothing.
-/

namespace Ragged

/-! ## Visiting runs -/

namespace Action

variable {σ α : Type}

def withContext (note : String) (a : Action σ α) : Action σ α := fun s =>
  let (x, s) := a s
  (x.withContext note, s)

theorem withContext_apply (note : String) (a : Action σ α) (s : σ) :
    withContext note a s = ((a s).1.withContext note, (a s).2) := rfl

end Action

namespace Run

variable {σ : Type}

/-- Acts on the runs of a row, each as soon as it is cut. -/
def eachCut (act : Run → Action σ Unit) (extent stride stop : Nat) : Nat → Nat → Action σ Unit
  | 0, pos => if pos < stop then liftM (Outcome.trap : Outcome Unit) else pure ()
  | fuel + 1, pos =>
    if pos < stop then do
      let key ← Word.div pos extent
      let chunkEnd := Word.satMul (← Word.add key 1) extent
      let length ← Word.sub (min chunkEnd stop) pos
      let offset ← Word.mul (← Word.mod pos extent) stride
      act ⟨[key], offset, length⟩
      eachCut act extent stride stop fuel (← Word.add pos length)
    else pure ()

def eachOfBox (act : Run → Action σ Unit) : List Nat → List Nat → List Nat → List Nat → Action σ Unit
  | [start], [count], [extent], [stride] => do
    eachCut act extent stride (← Word.add start count) count start
  | start :: starts, count :: counts, extent :: extents, stride :: strides => do
    let _ ← Word.add start count
    let row (c : Nat) := eachOfBox (fun r => do act (← under extent stride c r)) starts counts extents strides
    Action.forEach row (List.range' start count)
  | _, _, _, _ => act ⟨[], 0, 1⟩

theorem eachCut_eq {act : Run → Action σ Unit} {extent stride stop fuel pos : Nat} {runs : List Run}
    (h : cut extent stride stop fuel pos = .ok runs) :
    eachCut act extent stride stop fuel pos = Action.forEach act runs := by
  induction fuel generalizing pos runs with
  | zero =>
    rw [cut] at h
    split at h
    · cases h
    · rename_i hstop
      obtain rfl := Outcome.ok.inj h
      rw [eachCut, if_neg hstop]
      rfl
  | succ fuel ih =>
    rw [cut] at h
    split at h
    · rename_i hpos
      obtain ⟨key, hkey, h⟩ := Outcome.bind_eq_ok.mp h
      obtain ⟨after, hafter, h⟩ := Outcome.bind_eq_ok.mp h
      obtain ⟨length, hlength, h⟩ := Outcome.bind_eq_ok.mp h
      obtain ⟨cell, hcell, h⟩ := Outcome.bind_eq_ok.mp h
      obtain ⟨offset, hoffset, h⟩ := Outcome.bind_eq_ok.mp h
      obtain ⟨next, hnext, h⟩ := Outcome.bind_eq_ok.mp h
      obtain ⟨rest, hrest, h⟩ := Outcome.bind_eq_ok.mp h
      obtain rfl := Outcome.ok.inj h
      rw [eachCut, if_pos hpos]
      simp only [hkey, hafter, hlength, hcell, hoffset, hnext, Action.lift_ok_bind, ih hrest, Action.forEach]
    · rename_i hstop
      obtain rfl := Outcome.ok.inj h
      rw [eachCut, if_neg hstop]
      rfl

theorem eachOfBox_eq {act : Run → Action σ Unit} {starts counts extents strides : List Nat} {runs : List Run}
    (h : ofBox starts counts extents strides = .ok runs) :
    eachOfBox act starts counts extents strides = Action.forEach act runs := by
  fun_induction ofBox starts counts extents strides generalizing act runs with
  | case1 start count extent stride =>
    obtain ⟨stop, hstop, h⟩ := Outcome.bind_eq_ok.mp h
    rw [eachOfBox, hstop, Action.lift_ok_bind, eachCut_eq h]
  | case2 start starts count counts extent extents stride strides hne ih =>
    obtain ⟨stop, hstop, h⟩ := Outcome.bind_eq_ok.mp h
    obtain ⟨inner, hinner, h⟩ := Outcome.bind_eq_ok.mp h
    obtain ⟨rows, hrows, h⟩ := Outcome.bind_eq_ok.mp h
    obtain rfl := Outcome.ok.inj h
    -- the runs of the faster dimensions, visited as they are found, with every run put under `c` before it is acted on
    have hrow : ∀ c row, inner.mapM (under extent stride c) = .ok row →
        eachOfBox (fun r => do act (← under extent stride c r)) starts counts extents strides =
          Action.forEach act row := by
      intro c row hc
      rw [ih hinner, Action.forEach_lift (Outcome.forall₂_of_mapM hc)]
    rw [eachOfBox, hstop, Action.lift_ok_bind]
    · exact Action.forEach_flatten ((Outcome.forall₂_of_mapM hrows).imp hrow)
    · exact hne
  | case3 starts counts extents strides hone hmore =>
    obtain rfl := Outcome.ok.inj h
    rw [eachOfBox]
    · exact bind_pure_unit.symm
    · exact hone
    · exact hmore

end Run

def Slab.eachRun {σ : Type} (chunk : List Nat) (slab : Slab) (act : Run → Action σ Unit) : Action σ Unit :=
  if slab.size = 0 then pure ()
  else do
    let shape ← Shape.ofDims chunk
    Run.eachOfBox act slab.starts slab.counts chunk shape.strides

theorem Slab.eachRun_eq {σ : Type} {chunk : List Nat} {slab : Slab} {runs : List Run} {act : Run → Action σ Unit}
    (h : slab.runs chunk = .ok runs) : slab.eachRun chunk act = Action.forEach act runs := by
  unfold Slab.runs at h
  unfold Slab.eachRun
  by_cases hz : slab.size = 0
  · rw [if_pos hz] at h ⊢
    obtain rfl := Outcome.ok.inj h
    rfl
  · rw [if_neg hz] at h ⊢
    obtain ⟨shape, hshape, h⟩ := Outcome.bind_eq_ok.mp h
    rw [hshape, Action.lift_ok_bind, Run.eachOfBox_eq h]

/-! ## Stores -/

namespace Store

variable {α : Type}

theorem setChunk_setChunk (key : List Nat) (old new : Array α) (chunks : List (List Nat × Array α)) :
    setChunk key new (setChunk key old chunks) = setChunk key new chunks := by
  induction chunks with
  | nil => simp [setChunk]
  | cons chunk chunks ih =>
    obtain ⟨k, cells⟩ := chunk
    by_cases hk : k = key
    · simp [setChunk, hk]
    · simp [setChunk, hk, ih]

variable [Inhabited α]

/-- Copies the next of the values to a run, in a store and the number of values used up before. The chunk takes room
before it is known whether the values or the cells reach that far. -/
def fillRun (values : List α) (r : Run) : Action (Store α × Nat) Unit := fun (s, used) =>
  let cells := (s.chunks.lookup r.chunk).getD (Array.replicate s.chunkLen default)
  let s := { s with chunks := setChunk r.chunk cells s.chunks }
  if used + r.length ≤ values.length ∧ r.offset + r.length ≤ cells.size then
    let cells := overwrite cells r.offset ((values.drop used).take r.length)
    (.ok (), { s with chunks := setChunk r.chunk cells s.chunks }, used + r.length)
  else (.trap, s, used)

def writeWithinInPlace (shape : Shape) (slab : Slab) (values : List α) : Action (Store α) Unit := do
  slab.checkWithin shape
  Outcome.require (slab.size = values.length) (.shapeMismatch s!"{slab.size} values" s!"{values.length} values")
  let chunk ← Action.view fun s => .ok s.chunkShape
  Action.zoom (fun s => (s, 0)) (fun t _ => t.1) (slab.eachRun chunk (fillRun values))

def writeInPlace (slab : Slab) (values : List α) : Action (Store α) Unit := do
  let shape ← Action.view fun s => .ok s.shape
  writeWithinInPlace shape slab values

def appendInPlace (values : List α) : Action (Store α) Unit := do
  let size ← Action.view fun s => .ok s.shape.size
  let stop ← Outcome.ofOption (.invalidArgument s!"cannot grow {size} elements past {Word.last}")
    (Word.add? size values.length)
  let grown ← Shape.ofDims [stop]
  writeWithinInPlace grown (Slab.range size values.length) values
  Action.step fun s => .ok { s with shape := grown }

theorem fillRun_eq_ok {s t : Store α} {r : Run} {values : List α} {used : Nat} (hu : used ≤ values.length)
    (h : s.writeRun r ((values.drop used).take r.length) = .ok t) :
    used + r.length ≤ values.length ∧ fillRun values r (s, used) = (.ok (), t, used + r.length) := by
  simp only [writeRun] at h
  split at h
  · rename_i hfit
    obtain rfl := Outcome.ok.inj h
    rw [List.length_take, List.length_drop] at hfit
    have hused : used + r.length ≤ values.length := by omega
    refine ⟨hused, ?_⟩
    -- the chunk that took room, or was there, is replaced once more
    unfold fillRun
    simp only [if_pos (And.intro hused hfit.2), setChunk_setChunk]
  · cases h

theorem forEach_fillRun {runs : List Run} {s t : Store α} {values : List α} {used : Nat} (hu : used ≤ values.length)
    (h : s.writeRuns runs (values.drop used) = .ok t) :
    ∃ last, Action.forEach (fillRun values) runs (s, used) = (.ok (), t, last) := by
  induction runs generalizing s used with
  | nil =>
    obtain rfl := Outcome.ok.inj h
    exact ⟨used, rfl⟩
  | cons r runs ih =>
    obtain ⟨s', hr, hrest⟩ := Outcome.bind_eq_ok.mp h
    obtain ⟨hu', hfill⟩ := fillRun_eq_ok hu hr
    rw [List.drop_drop] at hrest
    obtain ⟨last, hlast⟩ := ih hu' hrest
    refine ⟨last, ?_⟩
    rw [Action.forEach, Action.bind_of_ok (congrArg Prod.fst hfill), hfill]
    exact hlast

theorem writeWithinInPlace_of_ok {s t : Store α} {shape : Shape} {slab : Slab} {values : List α}
    (h : s.writeWithin shape slab values = .ok t) : writeWithinInPlace shape slab values s = (.ok (), t) := by
  obtain ⟨_, hcheck, h⟩ := Outcome.bind_eq_ok.mp h
  obtain ⟨_, hcount, h⟩ := Outcome.bind_eq_ok.mp h
  obtain ⟨runs, hruns, h⟩ := Outcome.bind_eq_ok.mp h
  obtain ⟨last, hlast⟩ := forEach_fillRun (Nat.zero_le _) h
  rw [writeWithinInPlace, hcheck, Action.lift_ok_bind, hcount, Action.lift_ok_bind, Action.view_bind,
    Slab.eachRun_eq hruns, Action.zoom_apply, hlast]

/-- Once the checks of a write have passed nothing stops it. -/
theorem Sound.writeWithinInPlace_eq {s : Store α} (h : s.Sound) {shape : Shape}
    (hrank : shape.dims.length = s.chunkShape.length) {slab : Slab} (hs : slab.Sized) (values : List α) :
    writeWithinInPlace shape slab values s = Action.step (fun s => s.writeWithin shape slab values) s := by
  cases hc : slab.checkWithin shape with
  | ok u =>
    by_cases hv : slab.size = values.length
    · obtain ⟨chunks, hw, -⟩ := h.writeWithin_eq_ok hrank hs hc hv
      rw [writeWithinInPlace_of_ok hw, Action.step_of_ok hw]
    · rw [Action.step_of_fail (writeWithin_of_miscount hc hv), writeWithinInPlace, hc, Action.lift_ok_bind,
        Outcome.require, if_neg hv]
      rfl
  | fail e =>
    have hw : s.writeWithin shape slab values = .fail e := by rw [writeWithin, hc, Outcome.fail_bind]
    rw [Action.step_of_fail hw, writeWithinInPlace, hc]
    rfl
  | trap =>
    have hw : s.writeWithin shape slab values = .trap := by rw [writeWithin, hc, Outcome.trap_bind]
    rw [Action.step_of_trap hw, writeWithinInPlace, hc]
    rfl

-- In a store with a chunk that lacks a cell the call stops half-way, and the chunk before it stays.
example :
    let s : Store Nat := ⟨Shape.rowMajor [4], .contiguous, false, [2], 2, [([1], #[0])]⟩
    writeInPlace (Slab.range 0 4) [1, 2, 3, 4] s = (.trap, { s with chunks := [([1], #[0]), ([0], #[1, 2])] }) := rfl

theorem Sound.appendInPlace_eq {s : Store α} (h : s.Sound) (hlin : s.shape.rank = 1) (values : List α) :
    appendInPlace values s = Action.step (fun s => s.append values) s := by
  by_cases hv : s.shape.size + values.length < 2 ^ 64
  · obtain ⟨chunks, hw, -⟩ := h.append_eq_ok hlin hv
    have happend := hw
    unfold append at hw
    rw [Word.add?_eq_some hv] at hw
    obtain ⟨grown, hgrown, hw⟩ := Outcome.bind_eq_ok.mp hw
    obtain ⟨written, hwritten, hw⟩ := Outcome.bind_eq_ok.mp hw
    have hact := writeWithinInPlace_of_ok hwritten
    -- the shape is changed after the last value
    rw [Action.step_of_ok happend, appendInPlace, Action.view_bind, Word.add?_eq_some hv, Outcome.ofOption,
      Action.lift_ok_bind, hgrown, Action.lift_ok_bind, Action.bind_of_ok (congrArg Prod.fst hact), hact]
    exact congrArg (Prod.mk (Outcome.ok ())) (Outcome.ok.inj hw)
  · rw [Action.step_of_fail (append_eq_fail hv), appendInPlace, Action.view_bind, Word.add?_eq_none hv]
    rfl

end Store

/-! ## Datasets -/

namespace Dataset

variable {α : Type} [Inhabited α]

def writeInPlace (slab : Slab) (values : List α) : Action (Dataset α) Unit := do
  let path ← Action.view fun d => .ok d.path
  Action.withContext s!"writing {slab.render} to '{path.render}'"
    (Action.zoom store (fun store d => { d with store }) (Store.writeInPlace slab values))

def appendInPlace (values : List α) : Action (Dataset α) Unit := do
  let path ← Action.view fun d => .ok d.path
  let extensible ← Action.view fun d => .ok d.store.extensible
  Outcome.require extensible (.invalidArgument s!"dataset '{path.render}' is not extensible")
  Action.withContext s!"appending to '{path.render}'"
    (Action.zoom store (fun store d => { d with store }) (Store.appendInPlace values))

def performInPlace : Op α → Action (Dataset α) (List α)
  | .read slab => Action.view fun d => d.read slab
  | .write slab values => do
    writeInPlace slab values
    return []
  | .append values => do
    appendInPlace values
    return []

omit [Inhabited α] in
theorem zoom_step {note : String} {a : Action (Store α) Unit} {f : Store α → Outcome (Store α)} {d : Dataset α}
    (h : a d.store = Action.step f d.store) :
    Action.withContext note (Action.zoom store (fun store d => { d with store }) a) d =
      Action.step (fun d => do
        let store ← (f d.store).withContext note
        return { d with store }) d := by
  rw [Action.withContext_apply, Action.zoom_apply, h]
  unfold Action.step
  dsimp only
  cases f d.store with
  | ok store => rfl
  | fail e => rfl
  | trap => rfl

section
variable {d : Dataset α} (h : d.store.Sound)
include h

theorem writeInPlace_eq {slab : Slab} (hs : slab.Sized) (values : List α) :
    writeInPlace slab values d = write slab values d := by
  rw [writeInPlace, Action.view_bind]
  exact zoom_step (h.writeWithinInPlace_eq h.rank.symm hs values)

theorem appendInPlace_eq (values : List α) : appendInPlace values d = append values d := by
  rw [appendInPlace, Action.view_bind, Action.view_bind, Outcome.require, append]
  by_cases he : d.store.extensible = true
  · rw [if_pos he, Action.lift_ok_bind, zoom_step (h.appendInPlace_eq (h.linear he) values)]
    exact Action.step_congr (if_pos he).symm
  · rw [if_neg he]
    refine (Action.step_of_fail ?_).symm
    exact if_neg he

theorem performInPlace_eq {op : Op α} (hs : op.Sized) : performInPlace op d = perform op d := by
  cases op with
  | read slab => rfl
  | write slab values => rw [performInPlace, perform, Action.bind_apply, Action.bind_apply, writeInPlace_eq h hs]
  | append values => rw [performInPlace, perform, Action.bind_apply, Action.bind_apply, appendInPlace_eq h]

end

theorem Reached.each_performInPlace {d : Dataset α} (h : d.Reached) {ops : List (Op α)}
    (hs : ∀ op ∈ ops, op.Sized) : Action.each performInPlace ops d = Action.each Dataset.perform ops d := by
  induction ops generalizing d with
  | nil => rfl
  | cons op ops ih =>
    rw [List.forall_mem_cons] at hs
    rw [Action.each_cons, Action.each_cons, performInPlace_eq h.sound hs.1, ih (h.perform op hs.1) hs.2]

end Dataset

end Ragged

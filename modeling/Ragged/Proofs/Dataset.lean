import Ragged.Proofs.Handles
import Ragged.Proofs.Store

/-!
# Datasets as plain arrays

A `Plain` array keeps a list of what was written, the latest write first. It checks what a dataset checks, and reads
at a coordinate what the latest write that covers it gave. A dataset of any layout answers every sequence of
operations as the plain array does: chunks are never seen.
-/

namespace Ragged

inductive Op (α : Type) where
  | read (slab : Slab)
  | write (slab : Slab) (values : List α)
  | append (values : List α)

namespace Op

variable {α : Type}

def Sized : Op α → Prop
  | read slab => slab.Sized
  | write slab _ => slab.Sized
  | append _ => True

end Op

structure Plain (α : Type) where
  path : Path
  shape : Shape
  extensible : Bool
  /-- What every write gave to its coordinates, the latest write first. -/
  writes : List (List (List Nat × α))

namespace Plain

variable {α : Type} [Inhabited α]

/-- What the first write of a list that covers a coordinate gives to it. -/
def latest (writes : List (List (List Nat × α))) (coord : List Nat) : α :=
  (writes.findSome? (·.lookup coord)).getD default

theorem latest_cons (w : List (List Nat × α)) (writes : List (List (List Nat × α))) (coord : List Nat) :
    latest (w :: writes) coord = (w.lookup coord).getD (latest writes coord) := by
  unfold latest
  rw [List.findSome?_cons]
  cases w.lookup coord with
  | none => rfl
  | some v => rfl

def value (p : Plain α) (coord : List Nat) : α := latest p.writes coord

def read (p : Plain α) (slab : Slab) : Outcome (List α) :=
  Outcome.withContext s!"reading {slab.render} from '{p.path.render}'" do
    slab.checkWithin p.shape
    return slab.cells.map p.value

def write (p : Plain α) (slab : Slab) (values : List α) : Outcome (Plain α) :=
  Outcome.withContext s!"writing {slab.render} to '{p.path.render}'" do
    slab.checkWithin p.shape
    Outcome.require (slab.size = values.length) (.shapeMismatch s!"{slab.size} values" s!"{values.length} values")
    return { p with writes := slab.cells.zip values :: p.writes }

def append (p : Plain α) (values : List α) : Outcome (Plain α) :=
  if p.extensible then
    Outcome.withContext s!"appending to '{p.path.render}'" do
      let stop ← Outcome.ofOption
        (.invalidArgument s!"cannot grow {p.shape.size} elements past {Word.last}")
        (Word.add? p.shape.size values.length)
      return { p with
        shape := Shape.rowMajor [stop]
        writes := (Slab.range p.shape.size values.length).cells.zip values :: p.writes }
  else .fail (.invalidArgument s!"dataset '{p.path.render}' is not extensible")

def perform : Op α → Action (Plain α) (List α)
  | .read slab => Action.view fun p => p.read slab
  | .write slab values => do
    Action.step fun p => p.write slab values
    return []
  | .append values => do
    Action.step fun p => p.append values
    return []

def moved (p : Plain α) (path : Path) : Plain α := { p with path }

theorem perform_extent_lt (op : Op α) (p : Plain α) (h : ∀ n ∈ p.shape.dims, n < 2 ^ 64) :
    ∀ n ∈ (perform op p).2.shape.dims, n < 2 ^ 64 := by
  cases op with
  | read slab => exact h
  | write slab values =>
    simp only [perform, Action.bind_apply, Action.step, write]
    cases slab.checkWithin p.shape with
    | ok u =>
      by_cases hv : slab.size = values.length
      · simp only [Outcome.require, if_pos hv, Outcome.ok_bind]
        exact h
      · simp only [Outcome.require, if_neg hv, Outcome.ok_bind]
        exact h
    | fail e => exact h
    | trap => exact h
  | append values =>
    simp only [perform, Action.bind_apply, Action.step, append]
    by_cases hx : p.extensible = true
    · simp only [if_pos hx]
      by_cases hv : p.shape.size + values.length < 2 ^ 64
      · rw [Word.add?_eq_some hv]
        intro n hn
        rw [List.mem_singleton.mp hn]
        exact hv
      · rw [Word.add?_eq_none hv]
        exact h
    · simp only [if_neg hx]
      exact h

theorem perform_moved (op : Op α) (p : Plain α) (path : Path) :
    (perform op (p.moved path)).1.value? = (perform op p).1.value? ∧
      (perform op (p.moved path)).2 = (perform op p).2.moved path := by
  cases op with
  | read slab =>
    refine ⟨?_, rfl⟩
    simp only [perform, Action.view, read, Outcome.value?_withContext]
    rfl
  | write slab values =>
    simp only [perform, Action.bind_apply, Action.step, write, moved]
    cases slab.checkWithin p.shape with
    | ok u =>
      by_cases hv : slab.size = values.length
      · simp only [Outcome.require, if_pos hv, Outcome.ok_bind]
        exact ⟨rfl, rfl⟩
      · simp only [Outcome.require, if_neg hv, Outcome.ok_bind]
        exact ⟨rfl, rfl⟩
    | fail e => exact ⟨rfl, rfl⟩
    | trap => exact ⟨rfl, rfl⟩
  | append values =>
    simp only [perform, Action.bind_apply, Action.step, append, moved]
    by_cases hx : p.extensible = true
    · simp only [if_pos hx]
      cases Word.add? p.shape.size values.length with
      | none => exact ⟨rfl, rfl⟩
      | some stop => exact ⟨rfl, rfl⟩
    · simp only [if_neg hx]
      exact ⟨rfl, trivial⟩

end Plain

namespace Dataset

variable {α : Type} [Inhabited α]

def perform : Op α → Action (Dataset α) (List α)
  | .read slab => Action.view fun d => d.read slab
  | .write slab values => do
    write slab values
    return []
  | .append values => do
    append values
    return []

/-- A dataset as a container creates it: of a shape and a layout that were asked for, or empty and growing. -/
inductive New : Dataset α → Prop
  | fixed {path : Path} {config : DatasetConfig} {shape : Shape} {layout : Layout} {store : Store α}
      (hshape : config.shape = .ok shape) (hlayout : config.layout = .ok layout)
      (hstore : Store.create shape layout false = .ok store) : New ⟨path, store⟩
  | growing {path : Path} {chunkLen : UInt64} {level : UInt8} {shape : Shape} {layout : Layout} {store : Store α}
      (hlen : chunkLen ≠ 0) (hlayout : Catalog.extensibleLayout chunkLen level = .ok layout)
      (hshape : Shape.ofDims [0] = .ok shape) (hstore : Store.create shape layout true = .ok store) :
      New ⟨path, store⟩

/-- The plain array with nothing written that a dataset stands for when it is new. -/
def blank (d : Dataset α) : Plain α := ⟨d.path, d.shape, d.store.extensible, []⟩

structure Shows (d : Dataset α) (p : Plain α) : Prop where
  sound : d.store.Sound
  path : p.path = d.path
  shape : p.shape = d.store.shape
  extensible : p.extensible = d.store.extensible
  value : ∀ c, c.length = d.store.chunkShape.length → d.store.value c = p.value c

/-! ## New datasets -/

theorem layout_positive {config : DatasetConfig} {layout : Layout} (h : config.layout = .ok layout)
    {chunk : List Nat} (hc : layout.chunk? = some chunk) : 0 ∉ chunk := by
  unfold DatasetConfig.layout at h
  split at h
  · cases h; cases hc
  · split at h
    · cases h
    · split at h
      · cases h; cases hc
      · split at h
        · cases h
        · split at h
          · cases h
          · split at h
            · cases h
            · rename_i hz
              obtain rfl := Outcome.ok.inj h
              obtain rfl := Option.some.inj hc
              intro hm
              obtain ⟨x, hx, hx0⟩ := List.mem_map.mp hm
              obtain rfl : x = 0 := UInt64.toNat_inj.mp hx0
              exact hz (List.contains_iff_mem.mpr hx)

theorem shape_ofDims {config : DatasetConfig} {shape : Shape} (h : config.shape = .ok shape) :
    Shape.ofDims shape.dims = .ok shape := by
  unfold DatasetConfig.shape at h
  split at h
  · obtain rfl := Outcome.ok.inj h
    rfl
  · obtain ⟨rfl, -⟩ := Shape.ofDims_eq_ok h
    exact h

theorem extensibleLayout_positive {chunkLen : UInt64} {level : UInt8} {layout : Layout} (h0 : chunkLen ≠ 0)
    (h : Catalog.extensibleLayout chunkLen level = .ok layout) {chunk : List Nat}
    (hc : layout.chunk? = some chunk) : 0 ∉ chunk := by
  obtain ⟨l, hl, h⟩ := Outcome.bind_eq_ok.mp h
  cases l with
  | contiguous =>
    obtain rfl := Outcome.ok.inj h
    obtain rfl := Option.some.inj hc
    intro hm
    exact h0 (UInt64.toNat_inj.mp (List.mem_singleton.mp hm).symm)
  | chunked extents filters =>
    obtain rfl := Outcome.ok.inj h
    exact layout_positive hl hc

theorem New.shows {d : Dataset α} (h : d.New) : d.Shows d.blank := by
  cases h with
  | fixed hshape hlayout hstore =>
    obtain ⟨hsound, -, -, hvalue⟩ := Store.create_sound (shape_ofDims hshape)
      (fun _ => layout_positive hlayout) Bool.false_ne_true.elim hstore
    exact ⟨hsound, rfl, rfl, rfl, fun c _ => hvalue c⟩
  | growing hlen hlayout hshape hstore =>
    obtain ⟨rfl, -⟩ := Shape.ofDims_eq_ok hshape
    obtain ⟨hsound, -, -, hvalue⟩ := Store.create_sound hshape
      (fun _ => extensibleLayout_positive hlen hlayout) (fun _ => rfl) hstore
    exact ⟨hsound, rfl, rfl, rfl, fun c _ => hvalue c⟩

/-! ## Calls -/

theorem Shows.read_eq {d : Dataset α} {p : Plain α} (h : d.Shows p) {slab : Slab} (hs : slab.Sized) :
    d.read slab = p.read slab := by
  unfold read Plain.read
  rw [h.sound.read_eq hs.rank, h.path, h.shape]
  congr 1
  cases hc : slab.checkWithin d.store.shape with
  | ok u =>
    have hin := (Slab.checkWithin_eq_ok hs.rank).mp hc
    have hmap : slab.cells.map d.store.value = slab.cells.map p.value := by
      apply List.map_congr_left
      intro c hm
      exact h.value c ((Store.length_of_mem_cells hin hm).trans h.sound.rank.symm)
    simp [hmap]
  | fail e => rfl
  | trap => rfl

theorem Shows.write_matches {d : Dataset α} {p : Plain α} (h : d.Shows p) {slab : Slab} (hs : slab.Sized)
    (values : List α) :
    Outcome.Matches Shows
      (do
        let store ← (d.store.write slab values).withContext s!"writing {slab.render} to '{d.path.render}'"
        return { d with store })
      (p.write slab values) := by
  unfold Store.write Plain.write
  rw [h.path, h.shape]
  cases hc : slab.checkWithin d.store.shape with
  | fail e =>
    simp only [Store.writeWithin, hc, Outcome.fail_bind]
    exact .fail _
  | trap =>
    simp only [Store.writeWithin, hc, Outcome.trap_bind]
    exact .trap
  | ok u =>
    by_cases hv : slab.size = values.length
    · obtain ⟨chunks, hw, hsound, hvalue⟩ := h.sound.writeWithin_eq_ok h.sound.rank.symm hs hc hv
      rw [hw]
      simp only [Outcome.require, if_pos hv, Outcome.ok_bind]
      apply Outcome.Matches.ok
      refine ⟨hsound, rfl, rfl, h.extensible, ?_⟩
      intro c hlen
      rw [Plain.value, Plain.latest_cons, ← Plain.value, ← h.value c hlen]
      exact hvalue c hlen
    · simp only [Store.writeWithin, hc, Outcome.require, if_neg hv, Outcome.ok_bind, Outcome.fail_bind]
      exact .fail _

theorem Shows.append_matches {d : Dataset α} {p : Plain α} (h : d.Shows p) (values : List α) :
    Outcome.Matches Shows
      (if d.store.extensible then do
        let store ← (d.store.append values).withContext s!"appending to '{d.path.render}'"
        return { d with store }
      else .fail (.invalidArgument s!"dataset '{d.path.render}' is not extensible"))
      (p.append values) := by
  unfold Plain.append
  rw [h.path, h.shape, h.extensible]
  by_cases he : d.store.extensible = true
  · rw [if_pos he, if_pos he]
    by_cases hv : d.store.shape.size + values.length < 2 ^ 64
    · obtain ⟨chunks, hw, hsound, hvalue⟩ := h.sound.append_eq_ok (h.sound.linear he) hv
      rw [hw, Word.add?_eq_some hv]
      apply Outcome.Matches.ok
      refine ⟨hsound, rfl, rfl, rfl, ?_⟩
      intro c hlen
      rw [Plain.value, Plain.latest_cons, ← Plain.value, ← h.value c hlen]
      exact hvalue c hlen
    · rw [Store.append_eq_fail hv, Word.add?_eq_none hv]
      exact .fail _
  · rw [if_neg he, if_neg he]
    exact .fail _

theorem Shows.perform {d : Dataset α} {p : Plain α} (h : d.Shows p) {op : Op α} (hs : op.Sized) :
    (perform op d).1 = (Plain.perform op p).1 ∧ Shows (perform op d).2 (Plain.perform op p).2 := by
  cases op with
  | read slab => exact ⟨h.read_eq hs, h⟩
  | write slab values => exact Action.step_matches h (h.write_matches hs values) []
  | append values => exact Action.step_matches h (h.append_matches values) []

theorem New.each_perform {d : Dataset α} (hd : d.New) {ops : List (Op α)} (hs : ∀ op ∈ ops, op.Sized) :
    (Action.each perform ops d).1 = (Action.each Plain.perform ops d.blank).1 ∧
      Shows (Action.each perform ops d).2 (Action.each Plain.perform ops d.blank).2 := by
  have hstep : ∀ op ∈ ops, ∀ (d : Dataset α) (p : Plain α), Shows d p →
      (perform op d).1 = (Plain.perform op p).1 ∧ Shows (perform op d).2 (Plain.perform op p).2 := by
    intro op hop d p h
    exact h.perform (hs op hop)
  have h := Action.each_related id hstep hd.shows
  rwa [List.map_id, List.map_id] at h

theorem Shows.length_read {d : Dataset α} {p : Plain α} (h : d.Shows p) {slab : Slab} (hs : slab.Sized)
    {values : List α} (hr : d.read slab = .ok values) : values.length = slab.size := by
  rw [h.read_eq hs, Plain.read] at hr
  cases hc : slab.checkWithin p.shape with
  | ok u =>
    rw [hc] at hr
    obtain rfl := Outcome.ok.inj hr
    rw [List.length_map, hs.length_cells]
  | fail e => rw [hc] at hr; cases hr
  | trap => rw [hc] at hr; cases hr

theorem path_write (slab : Slab) (values : List α) (d : Dataset α) : (write slab values d).2.path = d.path := by
  simp only [write, Action.step]
  cases d.store.write slab values with
  | ok store => rfl
  | fail e => rfl
  | trap => rfl

theorem path_append (values : List α) (d : Dataset α) : (append values d).2.path = d.path := by
  simp only [append, Action.step]
  by_cases he : d.store.extensible = true
  · simp only [if_pos he]
    cases d.store.append values with
    | ok store => rfl
    | fail e => rfl
    | trap => rfl
  · simp only [if_neg he]

theorem path_perform (op : Op α) (d : Dataset α) : (perform op d).2.path = d.path := by
  cases op with
  | read slab => rfl
  | write slab values =>
    rw [perform, Action.snd_bind_pure, path_write]
  | append values =>
    rw [perform, Action.snd_bind_pure, path_append]

/-! ## The refinement -/

/-- A dataset answers every sequence of operations as the plain array of its shape does, also through any handles
of it. In particular it reads as many values as a slab has coordinates, and its layout does not matter for what it
answers. -/
theorem answers_as_plain {d : Dataset α} (hd : d.New) {ops : List (Op α)} (hs : ∀ op ∈ ops, op.Sized) :
    (Action.each perform ops d).1 = (Action.each Plain.perform ops d.blank).1 ∧
    (∀ slab values, (Op.read slab, Outcome.ok values) ∈ ops.zip (Action.each perform ops d).1 →
      values.length = slab.size) ∧
    (∀ e : Dataset α, e.New → e.shape = d.shape → e.store.extensible = d.store.extensible →
      (Action.each perform ops e).1.map Outcome.value? = (Action.each perform ops d).1.map Outcome.value?) ∧
    ∀ (X : Type) [Elements X] (t : ElementType X) (e : Dataset t.Carrier) (c : Catalog X)
      (calls : List (Handle t × Op t.Carrier)), e.New → (∀ call ∈ calls, c.dataset? call.1 = some e ∧ call.2.Sized) →
      (Action.each (fun call => call.1.act (perform call.2)) calls c).1 =
        (Action.each Plain.perform (calls.map Prod.snd) e.blank).1 := by
  refine ⟨(hd.each_perform hs).1, ?_, ?_, ?_⟩
  · intro slab values hm
    have := Action.forall_mem_zip_each (I := fun d => ∃ p, Shows d p)
      (Q := fun op answer => ∀ slab values, op = .read slab → answer = .ok values → values.length = slab.size)
      (f := perform) ?_ ⟨_, hd.shows⟩ _ hm
    · exact this slab values rfl rfl
    · intro op hop d h
      obtain ⟨p, hp⟩ := h
      refine ⟨?_, _, (hp.perform (hs op hop)).2⟩
      rintro slab values rfl hr
      exact hp.length_read (hs _ hop) hr
  · intro e he hshape hext
    have hblank : e.blank = d.blank.moved e.path := by
      unfold blank
      rw [hshape, hext]
      rfl
    rw [(he.each_perform hs).1, (hd.each_perform hs).1]
    refine (Action.each_related (R := fun p q => ∃ path, p = q.moved path) Outcome.value? ?_ ⟨_, hblank⟩).1
    intro op _ p q h
    obtain ⟨path, rfl⟩ := h
    exact ⟨(Plain.perform_moved op q path).1, path, (Plain.perform_moved op q path).2⟩
  · intro X _ t e c calls he hcalls
    rw [Handle.each_act path_perform fun call h => (hcalls call h).1]
    apply (he.each_perform _).1
    intro op hop
    obtain ⟨call, hcall, rfl⟩ := List.mem_map.mp hop
    exact (hcalls call hcall).2

theorem answers_as_plain_two_by_three :
    ∃ store : Store Nat,
      Store.create (Shape.rowMajor [2, 3]) (.chunked [2, 2] [.shuffle, .deflate 1]) false = .ok store ∧
      (Action.each perform
        [.write ⟨[0, 1], [2, 2], 4⟩ [1, 2, 3, 4], .write ⟨[0, 0], [1, 2], 2⟩ [5, 6], .read ⟨[0, 0], [2, 3], 6⟩]
        ⟨[], store⟩).1 = [.ok [], .ok [], .ok [5, 6, 2, 0, 3, 4]] := by
  have hshape : DatasetConfig.shape ⟨[2, 3], [2, 2], 1, false⟩ = .ok (Shape.rowMajor [2, 3]) := by decide
  have hlayout : DatasetConfig.layout ⟨[2, 3], [2, 2], 1, false⟩ =
      .ok (.chunked [2, 2] [.shuffle, .deflate 1]) := by decide
  refine ⟨_, rfl, ?_⟩
  refine (answers_as_plain (.fixed hshape hlayout rfl) ?_).1.trans (by decide)
  simp only [List.forall_mem_cons, List.not_mem_nil, false_implies, implies_true, and_true]
  exact ⟨⟨rfl, .inl rfl⟩, ⟨rfl, .inl rfl⟩, ⟨rfl, .inl rfl⟩⟩

/-! ## Datasets in use -/

/-- A dataset that a container created and on which calls were made since. -/
def Reached (d : Dataset α) : Prop :=
  ∃ (e : Dataset α) (ops : List (Op α)), e.New ∧ (∀ op ∈ ops, op.Sized) ∧ (Action.each perform ops e).2 = d

theorem New.reached {d : Dataset α} (h : d.New) : d.Reached := ⟨d, [], h, by simp, rfl⟩

theorem Reached.perform {d : Dataset α} (h : d.Reached) (op : Op α) (hs : op.Sized) :
    (perform op d).2.Reached := by
  obtain ⟨e, ops, he, hops, rfl⟩ := h
  refine ⟨e, ops ++ [op], he, ?_, ?_⟩
  · rw [List.forall_mem_append, List.forall_mem_singleton]
    exact ⟨hops, hs⟩
  · rw [Action.each_append]
    rfl

theorem Reached.sound {d : Dataset α} (h : d.Reached) : d.store.Sound := by
  obtain ⟨e, ops, he, hs, rfl⟩ := h
  exact (he.each_perform hs).2.sound

theorem New.extent_lt {d : Dataset α} (h : d.New) : ∀ n ∈ d.shape.dims, n < 2 ^ 64 := by
  cases h with
  | @fixed path config shape layout store hshape hlayout hstore =>
    obtain ⟨-, hsame, -⟩ := Store.create_sound (shape_ofDims hshape)
      (fun _ => layout_positive hlayout) Bool.false_ne_true.elim hstore
    show ∀ n ∈ store.shape.dims, n < 2 ^ 64
    rw [hsame]
    unfold DatasetConfig.shape at hshape
    by_cases hscalar : config.scalar = true
    · rw [if_pos hscalar] at hshape
      obtain rfl := Outcome.ok.inj hshape
      exact nofun
    · rw [if_neg hscalar] at hshape
      obtain ⟨rfl, -⟩ := Shape.ofDims_eq_ok hshape
      intro n hn
      obtain ⟨x, -, rfl⟩ := List.mem_map.mp hn
      exact UInt64.toNat_lt x
  | @growing path chunkLen level shape layout store hlen hlayout hshape hstore =>
    obtain ⟨rfl, -⟩ := Shape.ofDims_eq_ok hshape
    obtain ⟨-, hsame, -⟩ := Store.create_sound hshape
      (fun _ => extensibleLayout_positive hlen hlayout) (fun _ => rfl) hstore
    show ∀ n ∈ store.shape.dims, n < 2 ^ 64
    rw [hsame]
    decide

theorem Reached.extent_lt {d : Dataset α} (h : d.Reached) : ∀ n ∈ d.shape.dims, n < 2 ^ 64 := by
  obtain ⟨e, ops, he, hs, rfl⟩ := h
  have hshape := (he.each_perform hs).2.shape
  have hwords := Action.each_keeps (I := fun p : Plain α => ∀ n ∈ p.shape.dims, n < 2 ^ 64)
    Plain.perform_extent_lt (s := e.blank) he.extent_lt ops
  rwa [hshape] at hwords

end Dataset

end Ragged

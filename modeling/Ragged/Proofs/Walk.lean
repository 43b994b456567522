import Ragged.Proofs.Partition

/-!
# The walk through the runs

`Walk` finds the runs of a slab one after the other: it moves along a row from chunk to chunk, and at the end of the row
it carries into the slower dimensions. It comes to its end at the runs of the slab, and no word overflows on the way,
also where the end of a chunk is no word.
-/

namespace Ragged

namespace Walk

def last (ns : List Nat) : Nat := ns.getLastD 0

def setLast (ns : List Nat) (n : Nat) : List Nat := ns.dropLast ++ [n]

/-- Moves on to the next row over starts, counts and a coordinate. The last part of the answer tells whether all slower
dimensions carried. -/
def carry : List Nat → List Nat → List Nat → Outcome (List Nat × Bool)
  | start :: s :: starts, count :: counts, c :: coord => do
    let (coord, carried) ← carry (s :: starts) counts coord
    if carried then
      let next ← Word.add c 1
      if next < (← Word.add start count) then return (next :: coord, false)
      return (start :: coord, true)
    return (c :: coord, false)
  | _, _, coord => return (coord, true)

/-- What a walk does at a coordinate: while the row goes on, it visits the run there and moves past it. At the end of
the row it goes back to its start and carries. -/
def turn (chunk strides starts counts coord : List Nat) : Outcome (Option Run × Option (List Nat)) := do
  let stop ← Word.add (last starts) (last counts)
  let pos := last coord
  if pos < stop then
    let chunkEnd := Word.satMul (← Word.add (← Word.div pos (last chunk)) 1) (last chunk)
    let length ← Word.sub (min chunkEnd stop) pos
    let key ← (coord.zip chunk).mapM fun (c, e) => Word.div c e
    let cell ← (coord.zip chunk).mapM fun (c, e) => Word.mod c e
    let offset ← Word.dot strides cell
    let next ← Word.add pos length
    return (some ⟨key, offset, length⟩, some (setLast coord next))
  else
    let (next, carried) ← carry starts counts (setLast coord (last starts))
    return (none, if carried then none else some next)

end Walk

/-- The runs that are visited from a coordinate on, until all dimensions have carried. -/
inductive Walk (chunk strides starts counts : List Nat) : List Nat → List Run → Prop
  | visit {coord next : List Nat} {r : Run} {runs : List Run}
      (turn : Walk.turn chunk strides starts counts coord = .ok (some r, some next))
      (rest : Walk chunk strides starts counts next runs) : Walk chunk strides starts counts coord (r :: runs)
  | row {coord next : List Nat} {runs : List Run}
      (turn : Walk.turn chunk strides starts counts coord = .ok (none, some next))
      (rest : Walk chunk strides starts counts next runs) : Walk chunk strides starts counts coord runs
  | done {coord : List Nat} (turn : Walk.turn chunk strides starts counts coord = .ok (none, none)) :
      Walk chunk strides starts counts coord []

namespace Walk

theorem unique {chunk strides starts counts coord : List Nat} {runs runs' : List Run}
    (h : Walk chunk strides starts counts coord runs) (h' : Walk chunk strides starts counts coord runs') :
    runs' = runs := by
  induction h generalizing runs' with
  | visit hturn _ ih =>
    cases h' with
    | visit hturn' rest' =>
      simp only [hturn, Outcome.ok.injEq, Prod.mk.injEq, Option.some.injEq] at hturn'
      obtain ⟨rfl, rfl⟩ := hturn'
      rw [ih rest']
    | row hturn' => simp [hturn] at hturn'
    | done hturn' => simp [hturn] at hturn'
  | row hturn _ ih =>
    cases h' with
    | visit hturn' => simp [hturn] at hturn'
    | row hturn' rest' =>
      simp only [hturn, Outcome.ok.injEq, Prod.mk.injEq, Option.some.injEq] at hturn'
      obtain ⟨-, rfl⟩ := hturn'
      exact ih rest'
    | done hturn' => simp [hturn] at hturn'
  | done hturn =>
    cases h' with
    | visit hturn' => simp [hturn] at hturn'
    | row hturn' => simp [hturn] at hturn'
    | done => rfl

/-! ### One turn -/

theorem last_cons {ns : List Nat} (h : ns ≠ []) (n : Nat) : last (n :: ns) = last ns := by
  obtain ⟨m, ns, rfl⟩ := List.exists_cons_of_ne_nil h
  simp [last]

theorem last_setLast (ns : List Nat) (n : Nat) : last (setLast ns n) = n := by simp [last, setLast]

theorem last_ne_zero {ns : List Nat} (hne : ns ≠ []) (h0 : 0 ∉ ns) : last ns ≠ 0 := by
  obtain ⟨m, ns, rfl⟩ := List.exists_cons_of_ne_nil hne
  have hmem : last (m :: ns) ∈ m :: ns := by
    rw [last, List.getLastD_cons]
    exact List.getLastD_mem_cons
  exact fun h => h0 (h ▸ hmem)

theorem setLast_cons {ns : List Nat} (h : ns ≠ []) (n m : Nat) : setLast (n :: ns) m = n :: setLast ns m := by
  rw [setLast, List.dropLast_cons_of_ne_nil h]
  rfl

theorem length_setLast {ns : List Nat} (h : ns ≠ []) (n : Nat) : (setLast ns n).length = ns.length := by
  have := List.length_pos_iff.mpr h
  simp [setLast]
  omega

def chunkEnd (chunk coord : List Nat) : Nat := (last coord / last chunk + 1) * last chunk

def runAt (chunk coord : List Nat) (stop : Nat) : Run :=
  ⟨(place chunk coord).1, (place chunk coord).2, min (chunkEnd chunk coord) stop - last coord⟩

theorem chunkEnd_cons {chunk coord : List Nat} (hne : chunk ≠ []) (hco : coord ≠ []) (e c : Nat) :
    chunkEnd (e :: chunk) (c :: coord) = chunkEnd chunk coord := by
  rw [chunkEnd, last_cons hne, last_cons hco, chunkEnd]

theorem runAt_cons {chunk coord : List Nat} (hne : chunk ≠ []) (hco : coord ≠ []) (e c stop : Nat) :
    runAt (e :: chunk) (c :: coord) stop = Run.lift e chunk.prod c (runAt chunk coord stop) := by
  rw [runAt, chunkEnd_cons hne hco, last_cons hco]
  rfl

theorem place_found {chunk coord : List Nat} (h0 : 0 ∉ chunk) (hp : chunk.prod < 2 ^ 64)
    (hl : coord.length = chunk.length) :
    (coord.zip chunk).mapM (fun (c, e) => Word.div c e) = .ok (place chunk coord).1 ∧
      (coord.zip chunk).mapM (fun (c, e) => Word.mod c e) = .ok (List.zipWith (· % ·) coord chunk) ∧
      Word.dot (Shape.stridesOf chunk) (List.zipWith (· % ·) coord chunk) = .ok (place chunk coord).2 := by
  have hzip : ∀ p ∈ coord.zip chunk, p.2 ≠ 0 := fun p hp h => h0 (h ▸ (List.of_mem_zip hp).2)
  refine ⟨?_, ?_, ?_⟩
  · rw [Outcome.mapM_eq_ok (g := fun p => p.1 / p.2) fun p hp => Word.div_eq_ok (hzip p hp), List.map_zip_eq_zipWith]
    rfl
  · rw [Outcome.mapM_eq_ok (g := fun p => p.1 % p.2) fun p hp => Word.mod_eq_ok (hzip p hp), List.map_zip_eq_zipWith]
    rfl
  · rw [Word.dot_eq]
    exact if_pos (Nat.lt_trans (place_lt h0 hl) hp)

theorem turn_eq {chunk starts counts coord : List Nat} (hne : chunk ≠ []) (h0 : 0 ∉ chunk) (hp : chunk.prod < 2 ^ 64)
    (hl : coord.length = chunk.length) (word : last starts + last counts < 2 ^ 64) :
    turn chunk (Shape.stridesOf chunk) starts counts coord =
      if last coord < last starts + last counts then
        .ok (some (runAt chunk coord (last starts + last counts)),
          some (setLast coord (min (chunkEnd chunk coord) (last starts + last counts))))
      else do
        let (next, carried) ← carry starts counts (setLast coord (last starts))
        return (none, if carried then none else some next) := by
  have he := last_ne_zero hne h0
  have hend : chunkEnd chunk coord = last chunk * (last coord / last chunk) + last chunk := by
    rw [chunkEnd, Nat.add_mul, Nat.mul_comm, Nat.one_mul]
  have hdiv := Nat.div_add_mod (last coord) (last chunk)
  have hmod := Nat.mod_lt (last coord) (Nat.pos_of_ne_zero he)
  have hkey : last coord / last chunk ≤ last coord := Nat.div_le_self _ _
  rw [turn, Word.add_eq_ok word, Outcome.ok_bind]
  dsimp only
  by_cases hpos : last coord < last starts + last counts
  · have hsat : min (Word.satMul (last coord / last chunk + 1) (last chunk)) (last starts + last counts) =
        min (chunkEnd chunk coord) (last starts + last counts) := by
      rw [Word.satMul, Word.last, Word.bound, ← chunkEnd]
      omega
    have hnext : last coord + (min (chunkEnd chunk coord) (last starts + last counts) - last coord) =
        min (chunkEnd chunk coord) (last starts + last counts) := by omega
    obtain ⟨hkeys, hcells, hoffset⟩ := place_found h0 hp hl
    rw [if_pos hpos, if_pos hpos, Word.div_eq_ok he, Outcome.ok_bind, Word.add_eq_ok (by omega), Outcome.ok_bind,
      hsat, Word.sub_eq_ok (by omega), Outcome.ok_bind, hkeys, Outcome.ok_bind, hcells, Outcome.ok_bind, hoffset,
      Outcome.ok_bind, Word.add_eq_ok (by omega), Outcome.ok_bind, hnext]
    rfl
  · rw [if_neg hpos, if_neg hpos]

/-! ### Under a slower coordinate -/

theorem carry_cons {starts : List Nat} (hne : starts ≠ []) (start count c : Nat) (counts coord : List Nat) :
    carry (start :: starts) (count :: counts) (c :: coord) = (do
      let (coord, carried) ← carry starts counts coord
      if carried then
        let next ← Word.add c 1
        if next < (← Word.add start count) then return (next :: coord, false)
        return (start :: coord, true)
      return (c :: coord, false)) := by
  obtain ⟨s, starts, rfl⟩ := List.exists_cons_of_ne_nil hne
  rfl

theorem carry_under {starts counts coord next : List Nat} {start count c : Nat} {carried : Bool} (hne : starts ≠ [])
    (hc : c < start + count) (word : start + count < 2 ^ 64) (h : carry starts counts coord = .ok (next, carried)) :
    carry (start :: starts) (count :: counts) (c :: coord) = .ok (
      if carried then if c + 1 < start + count then ((c + 1) :: next, false) else (start :: next, true)
      else (c :: next, false)) := by
  rw [carry_cons hne, h, Outcome.ok_bind]
  cases carried with
  | true =>
    by_cases hmore : c + 1 < start + count
    · simp [Word.add_eq_ok word, Word.add_eq_ok (show c + 1 < 2 ^ 64 by omega), hmore]
    · simp [Word.add_eq_ok word, Word.add_eq_ok (show c + 1 < 2 ^ 64 by omega), hmore]
  | false => rfl

theorem carry_reset {starts counts coord next : List Nat} {carried : Bool} (hcounts : counts.length = starts.length)
    (hcoord : coord.length = starts.length) (hlast : last coord = last starts)
    (h : carry starts counts coord = .ok (next, carried)) :
    next.length = starts.length ∧ (carried = true → next = starts) := by
  induction starts generalizing counts coord next carried with
  | nil =>
    obtain ⟨rfl, -⟩ := Prod.mk.inj (Outcome.ok.inj h)
    exact ⟨hcoord, fun _ => List.eq_nil_of_length_eq_zero hcoord⟩
  | cons start starts ih =>
    obtain ⟨count, counts, rfl⟩ := List.exists_cons_of_length_eq_add_one hcounts
    obtain ⟨c, coord, rfl⟩ := List.exists_cons_of_length_eq_add_one hcoord
    simp only [List.length_cons, Nat.add_right_cancel_iff] at hcounts hcoord
    cases starts with
    | nil =>
      obtain rfl := List.eq_nil_of_length_eq_zero hcoord
      obtain ⟨rfl, rfl⟩ := Prod.mk.inj (Outcome.ok.inj h)
      exact ⟨rfl, fun _ => congrArg (fun n => [n]) hlast⟩
    | cons s starts =>
      have hne : coord ≠ [] := List.ne_nil_of_length_eq_add_one hcoord
      rw [last_cons hne, last_cons (List.cons_ne_nil s starts)] at hlast
      rw [carry_cons (List.cons_ne_nil s starts)] at h
      obtain ⟨⟨next', carried'⟩, hinner, h⟩ := Outcome.bind_eq_ok.mp h
      obtain ⟨hlength, hreset⟩ := ih hcounts hcoord hlast hinner
      cases carried' with
      | false =>
        obtain ⟨rfl, rfl⟩ := Prod.mk.inj (Outcome.ok.inj h)
        exact ⟨congrArg Nat.succ hlength, nofun⟩
      | true =>
        obtain ⟨after, -, h⟩ := Outcome.bind_eq_ok.mp h
        obtain ⟨stop, -, h⟩ := Outcome.bind_eq_ok.mp h
        split at h
        · obtain ⟨rfl, rfl⟩ := Prod.mk.inj (Outcome.ok.inj h)
          exact ⟨congrArg Nat.succ hlength, nofun⟩
        · obtain ⟨rfl, rfl⟩ := Prod.mk.inj (Outcome.ok.inj h)
          exact ⟨congrArg Nat.succ hlength, fun _ => congrArg (List.cons start) (hreset rfl)⟩

theorem carry_of_turn {chunk starts counts coord : List Nat} {next : Option (List Nat)} (hne : chunk ≠ [])
    (h0 : 0 ∉ chunk) (hp : chunk.prod < 2 ^ 64) (hstarts : starts.length = chunk.length)
    (hcounts : counts.length = chunk.length) (hl : coord.length = chunk.length)
    (word : last starts + last counts < 2 ^ 64)
    (h : turn chunk (Shape.stridesOf chunk) starts counts coord = .ok (none, next)) :
    last starts + last counts ≤ last coord ∧ ∃ after carried,
      carry starts counts (setLast coord (last starts)) = .ok (after, carried) ∧
      next = (if carried then none else some after) ∧ after.length = chunk.length ∧ (carried = true → after = starts) := by
  have hco : coord ≠ [] := List.ne_nil_of_length_pos (by rw [hl]; exact List.length_pos_iff.mpr hne)
  rw [turn_eq hne h0 hp hl word] at h
  split at h
  · cases h
  · obtain ⟨⟨after, carried⟩, hcarry, h⟩ := Outcome.bind_eq_ok.mp h
    obtain ⟨-, rfl⟩ := Prod.mk.inj (Outcome.ok.inj h)
    obtain ⟨hlength, hreset⟩ := carry_reset (by omega) (by rw [length_setLast hco]; omega) (last_setLast _ _) hcarry
    exact ⟨Nat.le_of_not_lt ‹_›, after, carried, hcarry, rfl, by omega, hreset⟩

section
variable {chunk starts counts coord : List Nat} {e start count c : Nat} (he : e ≠ 0) (hne : chunk ≠ []) (h0 : 0 ∉ chunk)
  (hp : (e :: chunk).prod < 2 ^ 64) (hstarts : starts.length = chunk.length) (hcounts : counts.length = chunk.length)
  (word : start + count < 2 ^ 64) (word' : last starts + last counts < 2 ^ 64) (hl : coord.length = chunk.length)
include he hne h0 hp hstarts hcounts word' hl

theorem turn_cons (start count c : Nat) :
    turn (e :: chunk) (Shape.stridesOf (e :: chunk)) (start :: starts) (count :: counts) (c :: coord) =
    if last coord < last starts + last counts then
      .ok (some (Run.lift e chunk.prod c (runAt chunk coord (last starts + last counts))),
        some (c :: setLast coord (min (chunkEnd chunk coord) (last starts + last counts))))
    else do
      let (next, carried) ← carry (start :: starts) (count :: counts) (c :: setLast coord (last starts))
      return (none, if carried then none else some next) := by
  have hpos : 0 < chunk.length := List.length_pos_iff.mpr hne
  have hs : starts ≠ [] := List.ne_nil_of_length_pos (by omega)
  have hn : counts ≠ [] := List.ne_nil_of_length_pos (by omega)
  have hco : coord ≠ [] := List.ne_nil_of_length_pos (by omega)
  have hl' : (c :: coord).length = (e :: chunk).length := congrArg Nat.succ hl
  rw [turn_eq (List.cons_ne_nil e chunk) (by simpa using ⟨he.symm, h0⟩) hp hl' (by rwa [last_cons hs, last_cons hn]),
    last_cons hco, last_cons hs, last_cons hn, runAt_cons hne hco, chunkEnd_cons hne hco, setLast_cons hco,
    setLast_cons hco]

include word

/-- The walk of a box under a slower coordinate, up to the end of the box, and how it goes on from there. -/
theorem under {runs more : List Run} (hc : c < start + count)
    (h : Walk chunk (Shape.stridesOf chunk) starts counts coord runs)
    (hmore : c + 1 = start + count ∧ more = [] ∨ c + 1 < start + count ∧
      Walk (e :: chunk) (Shape.stridesOf (e :: chunk)) (start :: starts) (count :: counts) ((c + 1) :: starts) more) :
    Walk (e :: chunk) (Shape.stridesOf (e :: chunk)) (start :: starts) (count :: counts) (c :: coord)
      (runs.map (Run.lift e chunk.prod c) ++ more) := by
  have hs : starts ≠ [] := List.ne_nil_of_length_pos (by rw [hstarts]; exact List.length_pos_iff.mpr hne)
  have hprod : chunk.prod < 2 ^ 64 := by
    have := Nat.le_mul_of_pos_left chunk.prod (Nat.pos_of_ne_zero he)
    rw [List.prod_cons] at hp
    omega
  have houter {coord : List Nat} (hl : coord.length = chunk.length) :=
    turn_cons he hne h0 hp hstarts hcounts word' hl start count c
  induction h with
  | @visit coord next r runs hturn _ ih =>
    rw [turn_eq hne h0 hprod hl word'] at hturn
    split at hturn
    · simp only [Outcome.ok.injEq, Prod.mk.injEq, Option.some.injEq] at hturn
      obtain ⟨rfl, rfl⟩ := hturn
      refine .visit ?_ (ih ?_)
      · rw [houter hl, if_pos ‹_›]
      · rw [length_setLast (List.ne_nil_of_length_pos (by rw [hl]; exact List.length_pos_iff.mpr hne)), hl]
    · obtain ⟨⟨_, _⟩, -, hturn⟩ := Outcome.bind_eq_ok.mp hturn
      cases hturn
  | @row coord next runs hturn _ ih =>
    obtain ⟨hend, after, carried, hcarry, hnext, hlength, -⟩ :=
      carry_of_turn hne h0 hprod hstarts hcounts hl word' hturn
    cases carried with
    | true => cases hnext
    | false =>
      obtain rfl := Option.some.inj hnext
      refine .row ?_ (ih hlength)
      rw [houter hl, if_neg (Nat.not_lt.mpr hend), carry_under hs hc word hcarry]
      rfl
  | @done coord hturn =>
    obtain ⟨hend, after, carried, hcarry, hnext, -, hreset⟩ :=
      carry_of_turn hne h0 hprod hstarts hcounts hl word' hturn
    cases carried with
    | false => cases hnext
    | true =>
      obtain rfl := hreset rfl
      have hturn := houter hl
      rw [if_neg (Nat.not_lt.mpr hend), carry_under hs hc word hcarry, if_pos rfl] at hturn
      rcases hmore with ⟨hlast, rfl⟩ | ⟨hnext, hmore⟩
      · rw [if_neg (by omega)] at hturn
        exact .done hturn
      · rw [if_pos hnext] at hturn
        exact .row hturn hmore

end

end Walk

/-! ## The whole walk -/

namespace Run

theorem Cut.walk {e start count pos : Nat} {runs : List Run} (he : e ≠ 0) (hp : e < 2 ^ 64)
    (word : start + count < 2 ^ 64) (h : Cut e (start + count) pos runs) :
    Walk [e] (Shape.stridesOf [e]) [start] [count] [pos] runs := by
  have hturn (pos : Nat) : Walk.turn [e] (Shape.stridesOf [e]) [start] [count] [pos] = _ :=
    Walk.turn_eq (List.cons_ne_nil e []) (by simpa using he.symm) (by simpa using hp) rfl word
  induction h with
  | @done pos hpos => exact .done ((hturn pos).trans (if_neg (Nat.not_lt.mpr hpos)))
  | @run pos runs hpos rest ih =>
    have hplace : place [e] [pos] = ([pos / e], pos % e) := by simp [place, Shape.stridesOf]
    refine .visit ((hturn pos).trans ((if_pos hpos).trans ?_)) ih
    rw [Walk.runAt, hplace]
    rfl

variable {starts counts chunk : List Nat} {runs : List Run}

theorem Box.length_eq (h : Box starts counts chunk runs) :
    starts.length = chunk.length ∧ counts.length = chunk.length := by
  induction h with
  | point => exact ⟨rfl, rfl⟩
  | row => exact ⟨rfl, rfl⟩
  | rows _ _ _ _ ih => exact ⟨congrArg Nat.succ ih.1, congrArg Nat.succ ih.2⟩

theorem Box.last_lt (h : Box starts counts chunk runs) : Walk.last starts + Walk.last counts < 2 ^ 64 := by
  induction h with
  | point => decide
  | row _ word _ => exact word
  | rows _ _ hne inner ih =>
    have hpos := List.length_pos_iff.mpr hne
    obtain ⟨hs, hn⟩ := inner.length_eq
    rwa [Walk.last_cons (List.ne_nil_of_length_pos (by omega)), Walk.last_cons (List.ne_nil_of_length_pos (by omega))]

theorem Box.chunk_pos (h : Box starts counts chunk runs) : 0 ∉ chunk := by
  induction h with
  | point => exact List.not_mem_nil
  | row he => simpa using he.symm
  | rows he _ _ _ ih => simpa using ⟨he.symm, ih⟩

theorem Box.walk (h : Box starts counts chunk runs) (hrank : chunk ≠ []) (hcounts : 0 ∉ counts)
    (hp : chunk.prod < 2 ^ 64) : Walk chunk (Shape.stridesOf chunk) starts counts starts runs := by
  induction h with
  | point => exact absurd rfl hrank
  | row he word hcut => exact hcut.walk he (by simpa using hp) word
  | @rows start count e starts counts chunk runs he word hne inner ih =>
    obtain ⟨hcount, hcounts⟩ := List.ne_and_not_mem_of_not_mem_cons hcounts
    obtain ⟨hstarts, hlength⟩ := inner.length_eq
    have hinner : Walk chunk (Shape.stridesOf chunk) starts counts starts runs := by
      refine ih hne hcounts (Nat.lt_of_le_of_lt ?_ hp)
      exact Nat.le_mul_of_pos_left _ (Nat.pos_of_ne_zero he)
    have hunder {c : Nat} {more : List Run} :=
      @Walk.under chunk starts counts starts e start count c he hne inner.chunk_pos hp hstarts hlength word
        inner.last_lt hstarts runs more
    -- from a coordinate of the slowest dimension on, with `n + 1` of them left
    have hrows (n c : Nat) (hc : c + (n + 1) = start + count) :
        Walk (e :: chunk) (Shape.stridesOf (e :: chunk)) (start :: starts) (count :: counts) (c :: starts)
          ((List.range' c (n + 1)).flatMap fun c => runs.map (lift e chunk.prod c)) := by
      induction n generalizing c with
      | zero => exact hunder (by omega) hinner (.inl ⟨hc, rfl⟩)
      | succ n ihn =>
        rw [List.range'_succ, List.flatMap_cons]
        exact hunder (by omega) hinner (.inr ⟨by omega, ihn (c + 1) (by omega)⟩)
    obtain ⟨n, rfl⟩ := Nat.exists_eq_succ_of_ne_zero (Ne.symm hcount)
    exact hrows n start rfl

end Run

/-- The runs of a slab inside a shape are found without a trap, whatever the chunks are. They are a partition of its
coordinates, which come in strictly increasing order, and they are what the walk from the start of the slab visits until
it ends. -/
theorem Slab.runs_partition {slab : Slab} {s : Shape} {chunk : List Nat} (hsized : slab.Sized)
    (hwithin : slab.checkWithin s = .ok ()) (hl : chunk.length = slab.rank) (h0 : 0 ∉ chunk)
    (hp : chunk.prod < 2 ^ 64) :
    ∃ runs, slab.runs chunk = .ok runs ∧ Run.Partition chunk slab runs ∧ slab.coords.Pairwise (· < ·) ∧
      (slab.size ≠ 0 → slab.rank ≠ 0 → ∃ grid, Shape.ofDims chunk = .ok grid ∧
        ∀ walked, Walk chunk grid.strides slab.starts slab.counts slab.starts walked ↔ walked = runs) := by
  have hin := (checkWithin_eq_ok hsized.rank).mp hwithin
  by_cases hz : slab.size = 0
  · exact ⟨[], if_pos hz, Run.partition_nil hsized.rank hz, coordsOf_sorted _ _, fun h => absurd hz h⟩
  · obtain ⟨runs, hrun, hbox⟩ := runs_box hin hl h0 hp hz
    have hlength : ∀ c ∈ slab.coords, c.length = chunk.length := by
      intro c hc
      rw [(hin.coord_lt hc).length_eq, ← hin.length_eq.2]
      exact hl.symm
    refine ⟨runs, hrun, hbox.partition hl hlength h0 hz, coordsOf_sorted _ _, fun _ hr => ?_⟩
    refine ⟨_, Shape.ofDims_of_prod h0 hp, fun walked => ?_⟩
    have hne : chunk ≠ [] := List.ne_nil_of_length_pos (by rw [hl]; exact Nat.pos_of_ne_zero hr)
    have hwalk := hbox.walk hne (hsized.counts_ne_zero hz) hp
    constructor
    · exact hwalk.unique
    · rintro rfl
      exact hwalk

/-- A row that ends at the last word. Its second chunk ends behind that, and is cut where the row ends. -/
theorem runs_partition_at_the_last_word :
    let slab : Slab := ⟨[0, 18446744073709551610], [1, 5], 5⟩
    let runs : List Run := [⟨[0, 4611686018427387902], 2, 2⟩, ⟨[0, 4611686018427387903], 0, 3⟩]
    (∃ s, Shape.ofDims [1, 18446744073709551615] = .ok s ∧ slab.Sized ∧ slab.checkWithin s = .ok ()) ∧
      slab.runs [3, 4] = .ok runs ∧ Run.Partition [3, 4] slab runs ∧
      (runs.flatMap (Run.coords [3, 4])).getLast? = some (.ok [0, 18446744073709551614]) ∧
      ∀ walked, Walk [3, 4] [4, 1] slab.starts slab.counts slab.starts walked ↔ walked = runs := by
  intro slab runs
  have hshape : Shape.ofDims [1, 18446744073709551615] = .ok (Shape.rowMajor [1, 18446744073709551615]) := by decide
  have hsized : slab.Sized := ⟨rfl, .inl rfl⟩
  have hwithin : slab.checkWithin (Shape.rowMajor [1, 18446744073709551615]) = .ok () := by decide
  have hruns : slab.runs [3, 4] = .ok runs := by decide
  obtain ⟨found, hfound, hpartition, -, hwalk⟩ :=
    @Slab.runs_partition slab _ [3, 4] hsized hwithin rfl (by decide) (by decide)
  obtain rfl : found = runs := Outcome.ok.inj (hfound.symm.trans hruns)
  obtain ⟨grid, hgrid, hwalk⟩ := hwalk (by decide) (by decide)
  obtain rfl := Outcome.ok.inj (hgrid.symm.trans (show Shape.ofDims [3, 4] = .ok ⟨[3, 4], [4, 1], 12⟩ by decide))
  exact ⟨⟨_, hshape, hsized, hwithin⟩, hruns, hpartition, by rw [hpartition.coords rfl]; decide, hwalk⟩

end Ragged

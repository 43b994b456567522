import Mathlib.Algebra.Order.Floor.Div
import Mathlib.GroupTheory.GroupAction.Ring
import Ragged.Proofs.Bijection
import Ragged.Proofs.Tiling

/-!
# Walks in progress

A walk may be asked for its next slab or moved past it, in any order and for as long as one likes. What it shows at
any time, and how many slabs it says are left, depends only on how often it was moved. The position is kept as a
coordinate, the number of slabs left is read off this coordinate, and the number of all slabs is a product over the
dimensions: the three agree after every move.
-/

namespace Ragged.Tiling

open Odometer

inductive Move where
  | next
  | advance

/-- What the caller of a move gets to see of a slab that is passed. -/
def Move.answer : Move → Option Slab → Option Slab
  | next, slab => slab
  | advance, _ => none

def move (t : Tiling) : Move → Outcome (Option Slab × Tiling)
  | .next => t.next
  | .advance => do return (none, ← t.advance)

def run : List Move → Tiling → Outcome (List (Option Slab) × Tiling)
  | [], t => .ok ([], t)
  | m :: moves, t => do
    let (answer, t) ← t.move m
    let (answers, t) ← run moves t
    return (answer :: answers, t)

/-- What a walk over these slabs shows after `k` moves. -/
structure Shows (t : Tiling) (slabs : List Slab) (k : Nat) : Prop where
  current : t.current = slabs[k]?
  slabCount : t.slabCount = .ok slabs.length
  remaining : t.remaining = .ok (slabs.length - min k slabs.length)
  sizeHint : t.sizeHint = .ok (slabs.length - min k slabs.length, some (slabs.length - min k slabs.length))
  finished : t.finished = true ↔ t.remaining = .ok 0
  currentSize : t.currentSize = t.current.elim 0 fun slab => slab.counts.prod
  next : ∃ t', t.next = .ok (t.current, t')
  fused : t.finished = true → t.next = .ok (none, t) ∧ t.advance = .ok t

/-! ## Moves -/

section
variable {full block : List Nat} {t : Tiling} {slabs : List Slab}

theorem Left.move (h : Left full block t slabs) (m : Move) :
    ∃ t', t.move m = .ok (m.answer slabs.head?, t') ∧ Left full block t' slabs.tail := by
  obtain ⟨t', hnext, h'⟩ := h.next
  refine ⟨t', ?_, h'⟩
  cases m with
  | next => exact hnext
  | advance => simp [Tiling.move, advance, hnext, Move.answer]

theorem Left.run (moves : List Move) (h : Left full block t slabs) :
    ∃ t', t.run moves = .ok (moves.mapIdx fun k m => m.answer slabs[k]?, t') ∧
      Left full block t' (slabs.drop moves.length) := by
  -- whichever the move is, the first of the slabs that are left is passed
  induction moves generalizing t slabs with
  | nil => exact ⟨t, rfl, h⟩
  | cons m moves ih =>
    obtain ⟨t', hmove, h'⟩ := h.move m
    obtain ⟨last, hrest, hlast⟩ := ih h'
    refine ⟨last, ?_, by rwa [← List.drop_one, List.drop_drop, Nat.add_comm] at hlast⟩
    simp only [Tiling.run, hmove, hrest, Outcome.ok_bind, Outcome.pure_eq, List.mapIdx_cons]
    cases slabs <;> simp

theorem Left.finished_iff (h : Left full block t slabs) : t.finished = true ↔ t.remaining = .ok 0 := by
  rw [h.remaining, h.eq]
  cases slabs <;> simp [finished]

theorem Left.currentSize (h : Left full block t slabs) :
    t.currentSize = t.current.elim 0 fun slab => slab.counts.prod := by
  cases h <;> rfl

theorem Left.fused (h : Left full block t slabs) (hf : t.finished = true) :
    t.next = .ok (none, t) ∧ t.advance = .ok t := by
  cases h with
  | ended => exact ⟨rfl, rfl⟩
  | stands => cases hf

end

/-! ## The number of slabs -/

theorem isVoid_iff {full block : List Nat} :
    isVoid full block = true ↔ 0 ∈ full ∨ block ≠ [] ∧ ∀ b ∈ block, b = 0 := by
  simp [isVoid]

theorem mapM_ceilDiv {full block : List Nat} (h0 : 0 ∉ block) :
    ((full.zip block).mapM fun (f, b) => Word.ceilDiv f b) = .ok (blockCounts full block) := by
  have hok : ∀ p ∈ full.zip block, Word.ceilDiv p.1 p.2 = .ok ((p.1 + p.2 - 1) / p.2) := by
    intro p hp
    apply Word.ceilDiv_eq_ok
    intro hb
    exact h0 (hb ▸ (List.of_mem_zip hp).2)
  rw [blockCounts, ← List.map_uncurry_zip_eq_zipWith]
  exact Outcome.mapM_eq_ok hok

theorem zero_mem_of_isVoid {full block : List Nat} (hl : full.length = block.length) (hv : isVoid full block = true) :
    0 ∈ blockCounts full block := by
  rw [zero_mem_blockCounts hl]
  rcases isVoid_iff.mp hv with hf | ⟨hne, hall⟩
  · exact .inl hf
  · obtain ⟨b, block, rfl⟩ := List.exists_cons_of_ne_nil hne
    have hb := hall b List.mem_cons_self
    exact .inr (hb ▸ List.mem_cons_self)

theorem ofBlock_cases {full block : List Nat} {t : Tiling} (h : ofBlock full block = .ok t) :
    full.length = block.length ∧
    (isVoid full block = true ∧ t = ⟨full, block, none⟩ ∨
      0 ∉ full ∧ 0 ∉ block ∧ full.prod < 2 ^ 64 ∧ t = ⟨full, block, some (blockAt full block (origin full))⟩) := by
  have hl := length_of_ofBlock h
  obtain ⟨s, hs, hblock⟩ := Outcome.bind_eq_ok.mp h
  obtain ⟨-, hp⟩ := Shape.ofDims_eq_ok hs
  rw [Outcome.require, if_pos hl, Outcome.ok_bind] at hblock
  refine ⟨hl, ?_⟩
  by_cases hv : isVoid full block = true
  · rw [if_pos hv] at hblock
    exact .inl ⟨hv, (Outcome.ok.inj hblock).symm⟩
  · by_cases h0 : 0 ∈ block
    · simp [hv, h0, Outcome.require] at hblock
    · have hf : 0 ∉ full := fun hf => hv (isVoid_of_zero hf)
      rw [ofBlock_eq_ok hl h0 hf hp] at h
      exact .inr ⟨hf, h0, hp, (Outcome.ok.inj h).symm⟩

section
variable {full block : List Nat} {t : Tiling} (h : ofBlock full block = .ok t)
include h

theorem ofBlock_left : Left full block t (gridSlabs full block) := by
  obtain ⟨hl, ⟨hv, rfl⟩ | ⟨hf, h0, hp, rfl⟩⟩ := ofBlock_cases h
  · rw [gridSlabs, grid_eq_nil (zero_mem_of_isVoid hl hv)]
    exact .ended
  · exact left_gridSlabs hl h0 hf hp

theorem slabCount_ofBlock {slabs : List Slab} {u : Tiling} (hu : Left full block u slabs) :
    u.slabCount = .ok (gridSlabs full block).length := by
  rw [hu.eq, slabCount, length_gridSlabs]
  obtain ⟨hl, ⟨hv, rfl⟩ | ⟨hf, h0, hp, rfl⟩⟩ := ofBlock_cases h
  · rw [if_pos hv, List.prod_eq_zero (zero_mem_of_isVoid hl hv)]
  · -- no more blocks than elements, and so their number and the products on the way to it are words
    have hle := (origin_onGrid hl h0 hf hp).prod_blockCounts_le
    rw [isVoid_eq_false hf h0, if_neg Bool.false_ne_true, mapM_ceilDiv h0, Outcome.ok_bind,
      Word.product_eq_ok (blockCounts_ne_zero hl h0 hf) (by omega)]

theorem ofBlock_no_slabs :
    (gridSlabs full block).length = 0 ↔ 0 ∈ full ∨ block ≠ [] ∧ ∀ b ∈ block, b = 0 := by
  rw [← isVoid_iff, length_gridSlabs, List.prod_eq_zero_iff]
  obtain ⟨hl, ⟨hv, rfl⟩ | ⟨hf, h0, hp, rfl⟩⟩ := ofBlock_cases h
  · exact iff_of_true (zero_mem_of_isVoid hl hv) hv
  · rw [isVoid_eq_false hf h0]
    exact iff_of_false (blockCounts_ne_zero hl h0 hf) Bool.false_ne_true

theorem shows_of_left {k : Nat} {u : Tiling} (hu : Left full block u ((gridSlabs full block).drop k)) :
    u.Shows (gridSlabs full block) k := by
  have hrem : u.remaining = .ok ((gridSlabs full block).length - min k (gridSlabs full block).length) := by
    rw [hu.remaining, List.length_drop]
    congr 1
    omega
  exact {
    current := by rw [hu.eq, List.head?_drop]
    slabCount := slabCount_ofBlock h hu
    remaining := hrem
    sizeHint := by rw [sizeHint, hrem, Outcome.ok_bind, Outcome.pure_eq]
    finished := hu.finished_iff
    currentSize := hu.currentSize
    next := by
      obtain ⟨u', hnext, -⟩ := hu.next
      rw [hu.eq] at hnext ⊢
      exact ⟨u', hnext⟩
    fused := hu.fused }

end

theorem getElem?_gridSlabs {full block : List Nat} {k : Nat} (hk : k < (gridSlabs full block).length) :
    ∃ ks, (Shape.rowMajor (blockCounts full block)).unravel k = .ok ks ∧
      (gridSlabs full block)[k]? = some (blockAt full block ks) := by
  rw [length_gridSlabs] at hk
  obtain ⟨ks, hks, rfl⟩ := Shape.exists_coord hk
  exact ⟨ks, Shape.unravel_eq_ok hks, by rw [gridSlabs, List.getElem?_map, Shape.getElem?_grid hks, Option.map_some]⟩

theorem blockCounts_eq_ceilDiv (full block : List Nat) :
    blockCounts full block = List.zipWith (· ⌈/⌉ ·) full block := by
  simp only [blockCounts, Nat.ceilDiv_eq_add_pred_div]

/-- However an accepted walk is moved, nothing traps, the answers are the slabs that the calls came to, and the walk
shows how far it is. The slabs are the blocks at the positions of a grid, in the order of their numbers. Their number
is the product of the extents divided by those of a block and rounded up: it is zero only for an array without elements
or for blocks without extent in any dimension. -/
theorem walk_shows {full block : List Nat} {t : Tiling} (h : ofBlock full block = .ok t) :
    ∃ slabs : List Slab,
      (slabs.length = 0 ↔ 0 ∈ full ∨ block ≠ [] ∧ ∀ b ∈ block, b = 0) ∧
      slabs.length = (List.zipWith (· ⌈/⌉ ·) full block).prod ∧
      (∀ k, k < slabs.length → ∃ ks, (Shape.rowMajor (List.zipWith (· ⌈/⌉ ·) full block)).unravel k = .ok ks ∧
        slabs[k]? = some (blockAt full block ks)) ∧
      ∀ moves, ∃ t', t.run moves = .ok (moves.mapIdx fun k m => m.answer slabs[k]?, t') ∧
        t'.full = full ∧ t'.block = block ∧ t'.Shows slabs moves.length := by
  refine ⟨gridSlabs full block, ofBlock_no_slabs h, ?_, ?_, ?_⟩
  · rw [← blockCounts_eq_ceilDiv, length_gridSlabs]
  · intro k hk
    rw [← blockCounts_eq_ceilDiv]
    exact getElem?_gridSlabs hk
  · intro moves
    obtain ⟨t', hrun, hleft⟩ := (ofBlock_left h).run moves
    refine ⟨t', hrun, ?_, ?_, shows_of_left h hleft⟩
    · rw [hleft.eq]
    · rw [hleft.eq]

theorem walk_shows_near_the_bound :
    let t : Tiling := ⟨[18446744073709551615], [9223372036854775808],
      some ⟨[0], [9223372036854775808], 9223372036854775808⟩⟩
    let final : Slab := ⟨[9223372036854775808], [9223372036854775807], 9223372036854775807⟩
    ofBlock [18446744073709551615] [9223372036854775808] = .ok t ∧
      ∃ slabs t', slabs.length = 2 ∧ slabs[1]? = some final ∧
        t.run [.advance, .next, .next, .advance] = .ok ([none, some final, none, none], t') ∧ t'.Shows slabs 4 := by
  intro t final
  have ht : ofBlock [18446744073709551615] [9223372036854775808] = .ok t := by decide
  obtain ⟨slabs, -, hlength, hat, hruns⟩ := walk_shows ht
  have htwo : slabs.length = 2 := by simpa [Nat.ceilDiv_eq_add_pred_div] using hlength
  obtain ⟨ks, hks, hget⟩ := hat 1 (by omega)
  have hunravel : (Shape.rowMajor (List.zipWith (· ⌈/⌉ ·) [18446744073709551615] [9223372036854775808])).unravel 1 =
      .ok [1] := by
    simp only [List.zipWith_cons_cons, List.zipWith_nil_left, Nat.ceilDiv_eq_add_pred_div]
    decide
  obtain rfl := Outcome.ok.inj (hunravel.symm.trans hks)
  obtain ⟨t', hrun, -, -, hshows⟩ := hruns [.advance, .next, .next, .advance]
  refine ⟨ht, slabs, t', htwo, hget, ?_, hshows⟩
  obtain ⟨first, second, rfl⟩ := List.length_eq_two.mp htwo
  have hsecond : second = final := Option.some.inj hget
  rw [hrun, hsecond]
  rfl

end Ragged.Tiling

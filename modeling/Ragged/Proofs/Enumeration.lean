import Ragged.Pointer.Codec
import Ragged.Proofs.Bijection
import Ragged.Proofs.Indices
import Ragged.Proofs.Outcome

/-!
# Slabs are enumerated

The indices of a slab are drawn one by one, each once and in increasing order, and how many are left is known after
every draw. For this the slab need not lie in a shape: it is enough that the strides lead from its start to its end
within the words. A slab without elements starts where its coordinates say although nothing is there, and this start
may be no word.
-/

namespace Ragged

open Odometer (grid succ)

namespace Indices

def draw : Nat → Indices → Outcome (List (Option Nat) × Indices)
  | 0, it => .ok ([], it)
  | n + 1, it => do
    let (index, it) ← it.next
    let (rest, it) ← draw n it
    return (index :: rest, it)

/-- The draws give these indices in their order and then none for ever, and it is always known how many are left. -/
structure Enumerates (it : Indices) (indices : List Nat) : Prop where
  drained : it.toList = .ok indices
  drawn : ∀ n, ∃ it', it.draw n = .ok ((List.range n).map (indices[·]?), it') ∧
    it'.remaining = indices.length - n ∧ it'.sizeHint = (indices.length - n, some (indices.length - n))

section
variable {counts strides : List Nat} {base : Nat}
  (hl : strides.length = counts.length) (hw : ∀ c ∈ counts, c < 2 ^ 64)
  (hf : ∀ ps, List.Forall₂ (· < ·) ps counts → (succ counts ps).2 = false → Fits base ps counts strides)

include hl hw hf in
theorem Left.draw (n : Nat) {it : Indices} {indices : List Nat} (h : Left base strides counts it indices) :
    ∃ it', it.draw n = .ok ((List.range n).map (indices[·]?), it') ∧
      Left base strides counts it' (indices.drop n) := by
  -- each draw takes the head of what is left, also when that is nothing
  induction n generalizing it indices with
  | zero => exact ⟨it, rfl, h⟩
  | succ n ih =>
    obtain ⟨it', hnext, h'⟩ := h.next hl hw hf
    obtain ⟨last, hrest, hlast⟩ := ih h'
    refine ⟨last, ?_, by rwa [← List.drop_one, List.drop_drop, Nat.add_comm] at hlast⟩
    simp only [Indices.draw, hnext, hrest, Outcome.ok_bind, Outcome.pure_eq, List.range_succ_eq_map]
    cases indices <;> simp [Function.comp_def]

include hl hw hf in
theorem Left.enumerates {it : Indices} {indices : List Nat} (h : Left base strides counts it indices) :
    it.Enumerates indices where
  drained := h.toList hl hw hf
  drawn n := by
    obtain ⟨it', hdraw, hleft⟩ := h.draw hl hw hf n
    have hrem : it'.remaining = indices.length - n := by rw [hleft.remaining, List.length_drop]
    exact ⟨it', hdraw, hrem, by rw [sizeHint, hrem]⟩

end

theorem fits_of_dot {strides counts ps : List Nat} {base : Nat} (hps : List.Forall₂ (· < ·) ps counts)
    (h : base + dot strides counts < 2 ^ 64) : Fits base ps counts strides := by
  induction hps generalizing strides base with
  | nil => trivial
  | @cons p c ps cs hp _ ih =>
    cases strides with
    | nil => trivial
    | cons s ss =>
      rw [dot_cons] at h
      have hstep : s * (p + 1) ≤ s * c := Nat.mul_le_mul_left _ hp
      rw [Nat.mul_succ] at hstep
      exact ⟨ih (by omega), fun _ => by omega⟩

theorem enumerates_inside {dims : List Nat} {slab : Slab} (hd : dims.prod < 2 ^ 64) (hs : slab.Sized)
    (hin : Slab.Inside slab.starts slab.counts dims) (hz : slab.size ≠ 0) :
    ∃ it, ofSlab (Shape.stridesOf dims) slab = .ok it ∧
      it.Enumerates (slab.coords.map (dot (Shape.stridesOf dims))) := by
  have hlt := Shape.dot_lt_prod (starts_lt hin (hs.counts_ne_zero hz))
  have hl := length_strides hin
  obtain ⟨it, hit, hleft⟩ := ofSlab_left hs hl (by omega)
  rw [Slab.cells, if_neg hz] at hleft
  exact ⟨it, hit, hleft.enumerates (hl.trans hs.rank) (count_lt hin) (fits_inside hd hin)⟩

theorem enumerates_of_dot {strides : List Nat} {slab : Slab} (hs : slab.Sized) (hl : strides.length = slab.rank)
    (hw : ∀ c ∈ slab.counts, c < 2 ^ 64)
    (h : dot strides (List.zipWith (· + ·) slab.starts slab.counts) < 2 ^ 64) :
    ∃ it, ofSlab strides slab = .ok it ∧ it.Enumerates (slab.cells.map (dot strides)) := by
  rw [dot_add _ _ _ hs.rank] at h
  obtain ⟨it, hit, hleft⟩ := ofSlab_left hs hl (by omega)
  exact ⟨it, hit, hleft.enumerates (hl.trans hs.rank) hw fun ps hps _ => fits_of_dot hps h⟩

theorem enumerates_nil {it : Indices} (h : it.remaining = 0) : it.Enumerates [] := by
  have hleft : Left 0 [] [] it [] := .ended h
  apply hleft.enumerates rfl (by simp)
  intro ps hps _
  cases hps
  trivial

theorem enumerates_empty {strides : List Nat} {slab : Slab} (hs : slab.Sized) (hl : strides.length = slab.rank)
    (hz : slab.size = 0) :
    if dot strides slab.starts < 2 ^ 64 then ∃ it, ofSlab strides slab = .ok it ∧ it.Enumerates []
    else ofSlab strides slab = .trap := by
  by_cases hstart : dot strides slab.starts < 2 ^ 64
  · rw [if_pos hstart]
    obtain ⟨it, hit, hleft⟩ := ofSlab_left hs hl hstart
    rw [Slab.cells, if_pos hz] at hleft
    exact ⟨it, hit, enumerates_nil hleft.remaining⟩
  · rw [if_neg hstart]
    exact ((ofSlab_cases hl).resolve_left fun h => hstart h.1).2

/-- The indices of a slab with elements that lies in a shape are the numbers of its coordinates, whose order is the
lexicographic one: they increase, are below the size of the shape, and are given one by one, and no sum or difference
on the way leaves the words. A slab without elements gives none where the number of its start is a word, and traps
where it is not. Outside of any shape the indices are the sums of products of strides and coordinates, as long as the
end of the slab is so many steps away that they are words. -/
theorem slab_enumerated {slab : Slab} (hsized : slab.Sized) :
    (∀ (dims : List Nat) (s : Shape), Shape.ofDims dims = .ok s → slab.checkWithin s = .ok () →
      (slab.size ≠ 0 → ∃ it indices, ofSlab s.strides slab = .ok it ∧ it.Enumerates indices ∧
        slab.coords.mapM s.flatIndex = .ok indices ∧ slab.coords.Pairwise (· < ·) ∧
        indices.Pairwise (· < ·) ∧ ∀ i ∈ indices, i < s.size) ∧
      (slab.size = 0 →
        if dot s.strides slab.starts < 2 ^ 64 then ∃ it, ofSlab s.strides slab = .ok it ∧ it.Enumerates []
        else ofSlab s.strides slab = .trap)) ∧
    ∀ strides : List Nat, strides.length = slab.rank → (∀ c ∈ slab.counts, c < 2 ^ 64) →
      dot strides (List.zipWith (· + ·) slab.starts slab.counts) < 2 ^ 64 →
        ∃ it, ofSlab strides slab = .ok it ∧
          (slab.size ≠ 0 → it.Enumerates
            ((grid slab.counts).map fun ps => dot strides (List.zipWith (· + ·) slab.starts ps))) ∧
          (slab.size = 0 → it.Enumerates []) := by
  constructor
  · intro dims s hs hc
    obtain ⟨rfl, hp⟩ := Shape.ofDims_eq_ok hs
    have hin : Slab.Inside slab.starts slab.counts dims := (Slab.checkWithin_eq_ok hsized.rank).mp hc
    refine ⟨fun hz => ?_, enumerates_empty hsized (length_strides hin)⟩
    obtain ⟨it, hit, hindices⟩ := enumerates_inside hp hsized hin hz
    have hsorted := Slab.coordsOf_sorted slab.starts slab.counts
    refine ⟨it, _, hit, hindices, ?_, hsorted, ?_, ?_⟩
    · apply Outcome.mapM_eq_ok
      intro c hm
      exact Shape.flatIndex_eq_ok hp (hin.coord_lt hm)
    · rw [List.pairwise_map]
      apply hsorted.imp_of_mem
      intro c c' hm hm' hlt
      exact Shape.dot_lt_dot (hin.coord_lt hm) (hin.coord_lt hm') hlt
    · intro i hi
      obtain ⟨c, hm, rfl⟩ := List.mem_map.mp hi
      exact Shape.dot_lt_prod (hin.coord_lt hm)
  · intro strides hl hw h
    obtain ⟨it, hit, hindices⟩ := enumerates_of_dot hsized hl hw h
    refine ⟨it, hit, fun hz => ?_, fun hz => ?_⟩
    · rwa [Slab.cells, if_neg hz, Slab.coords, Slab.coordsOf_eq hsized.rank, List.map_map] at hindices
    · rwa [Slab.cells, if_pos hz] at hindices

/-- Two rows at the upper end of the words, where a step goes beyond the last element before it comes back, and a slab
in an array that no shape describes. -/
theorem slab_enumerated_near_the_bound :
    let s := Shape.rowMajor [2, 9223372036854775807]
    let slab : Slab := ⟨[0, 9223372036854775805], [2, 2], 4⟩
    Shape.ofDims [2, 9223372036854775807] = .ok s ∧ slab.checkWithin s = .ok () ∧
      (∃ it, ofSlab s.strides slab = .ok it ∧ it.Enumerates
        [9223372036854775805, 9223372036854775806, 18446744073709551612, 18446744073709551613]) ∧
      ∃ it, ofSlab [3, 0] ⟨[2, 1], [2, 2], 4⟩ = .ok it ∧ it.Enumerates [6, 6, 9, 9] := by
  intro s slab
  have hs : Shape.ofDims [2, 9223372036854775807] = .ok s := by decide
  have hc : slab.checkWithin s = .ok () := by decide
  have hcoords : slab.coords.mapM s.flatIndex = .ok
      [9223372036854775805, 9223372036854775806, 18446744073709551612, 18446744073709551613] := by decide
  have hsized : slab.Sized := ⟨rfl, .inl rfl⟩
  have hsized' : Slab.Sized ⟨[2, 1], [2, 2], 4⟩ := ⟨rfl, .inl rfl⟩
  obtain ⟨it, indices, hit, hindices, hnumbers, -⟩ := ((slab_enumerated hsized).1 _ s hs hc).1 (by decide)
  obtain rfl := Outcome.ok.inj (hcoords.symm.trans hnumbers)
  obtain ⟨it', hit', hsums, -⟩ := (slab_enumerated hsized').2 [3, 0] rfl (by decide) (by decide)
  exact ⟨hs, hc, ⟨it, hit, hindices⟩, it', hit', hsums (by decide)⟩

/-- A slab without elements that lies in a shape and is not enumerated: the number of its start is no word. Pointers of
this slab, which are none, cannot be encoded. -/
theorem empty_slab_traps :
    let s := Shape.rowMajor [0, 2, 9223372036854775807]
    let slab : Slab := ⟨[0, 2, 9223372036854775807], [0, 0, 0], 0⟩
    Shape.ofDims [0, 2, 9223372036854775807] = .ok s ∧
      Slab.ofCounts [0, 2, 9223372036854775807] [0, 0, 0] = .ok slab ∧ slab.checkWithin s = .ok () ∧
      ofSlab s.strides slab = .trap ∧ (¬ ∃ it, ofSlab s.strides slab = .ok it ∧ it.toList = .ok []) ∧
      Codec.encodeSlab s slab [] [] = .trap := by
  intro s slab
  have htrap : ofSlab s.strides slab = .trap := by decide
  refine ⟨by decide, by decide, by decide, htrap, ?_, by decide⟩
  rintro ⟨it, hit, -⟩
  rw [htrap] at hit
  cases hit

end Indices

end Ragged

import Ragged.Writing
import Ragged.Proofs.Growing

/-!
# Sinks

What a writer may rely on: an append puts bytes at the end of a list, or fails and leaves the list as it was. A
dataset that grows is such a list as long as its size is a word, and one whose appends are made to fail is such a
list, too.
-/

namespace Ragged

variable {σ : Type}

/-- A sink that holds a list of bytes: an append puts bytes at its end, or fails and leaves the list as it was. -/
structure Sink.Keeps (S : Sink σ) (bytes : σ → List UInt8) (Good : σ → Prop) (Fails : Error → Prop) : Prop where
  size : ∀ s, Good s → S.size s = (bytes s).length
  append : ∀ s new, Good s → (bytes s).length + new.length < 2 ^ 64 → Good (S.append new s).2 ∧
    ((S.append new s).1 = .ok () ∧ bytes (S.append new s).2 = bytes s ++ new ∨
      ∃ e, Fails e ∧ (S.append new s).1 = .fail e ∧ bytes (S.append new s).2 = bytes s)

theorem Sink.dataset_keeps : dataset.Keeps Dataset.elements Dataset.Grows (fun _ => False) where
  size d _ := d.length_elements.symm
  append d new h hlen := by
    rw [d.length_elements] at hlen
    obtain ⟨store, happend, hgrows, helements⟩ := h.append_eq_ok hlen
    simp only [dataset, happend]
    exact ⟨hgrows, .inl ⟨trivial, helements⟩⟩

theorem Sink.observed_keeps {S : Sink σ} {bytes : σ → List UInt8} {Good : σ → Prop} {Fails : Error → Prop}
    (h : S.Keeps bytes Good Fails) (fails : Nat → Bool) :
    (observed S fails).Keeps (fun s => bytes s.sink) (fun s => Good s.sink)
      (fun e => Fails e ∨ e = .invalidArgument "injected failure") where
  size s hs := h.size s.sink hs
  append s new hs hlen := by
    simp only [observed]
    split
    · exact ⟨hs, .inr ⟨_, .inr rfl, rfl, rfl⟩⟩
    · obtain ⟨hgood, hok | ⟨e, he, hfail⟩⟩ := h.append s.sink new hs hlen
      · exact ⟨hgood, .inl hok⟩
      · exact ⟨hgood, .inr ⟨e, .inl he, hfail⟩⟩

structure Sink.Holds (S : Sink σ) (bytes : σ → List UInt8) (Good : σ → Prop) (Fails : Error → Prop)
    (Fit : Nat → Prop) : Prop where
  size : ∀ s, Good s → S.size s = (bytes s).length
  append : ∀ s new, Good s → Fit ((bytes s).length + new.length) → Good (S.append new s).2 ∧
    ((S.append new s).1 = .ok () ∧ bytes (S.append new s).2 = bytes s ++ new ∨
      ∃ e, Fails e ∧ (S.append new s).1 = .fail e ∧ bytes (S.append new s).2 = bytes s)
  shorter : ∀ {m n : Nat}, m ≤ n → Fit n → Fit m

theorem Sink.Keeps.holds {S : Sink σ} {bytes : σ → List UInt8} {Good : σ → Prop} {Fails : Error → Prop}
    (h : S.Keeps bytes Good Fails) : S.Holds bytes Good Fails (· < 2 ^ 64) where
  size := h.size
  append := h.append
  shorter hle hlt := Nat.lt_of_le_of_lt hle hlt

theorem Sink.Holds.above {S : Sink σ} {bytes : σ → List UInt8} {Good : σ → Prop} {Fails : Error → Prop}
    {Fit : Nat → Prop} (h : S.Holds bytes Good Fails Fit) (before : List UInt8) :
    S.Holds bytes (fun s => Good s ∧ before <+: bytes s) Fails Fit where
  size s hs := h.size s hs.1
  append s new hs hfit := by
    obtain ⟨hgood, ⟨hx, hbytes⟩ | ⟨e, he, hx, hbytes⟩⟩ := h.append s new hs.1 hfit
    · exact ⟨⟨hgood, hbytes ▸ hs.2.trans (List.prefix_append ..)⟩, .inl ⟨hx, hbytes⟩⟩
    · exact ⟨⟨hgood, hbytes ▸ hs.2⟩, .inr ⟨e, he, hx, hbytes⟩⟩
  shorter := h.shorter

theorem Sink.Holds.keeping {S : Sink σ} {bytes : σ → List UInt8} {Good Inv : σ → Prop} {Fails : Error → Prop}
    {Fit : Nat → Prop} (h : S.Holds bytes Good Fails Fit) (hinv : ∀ s new, Inv s → Inv (S.append new s).2) :
    S.Holds bytes (fun s => Good s ∧ Inv s) Fails Fit where
  size s hs := h.size s hs.1
  append s new hs hfit := by
    obtain ⟨hgood, hend⟩ := h.append s new hs.1 hfit
    exact ⟨⟨hgood, hinv s new hs.2⟩, hend⟩
  shorter := h.shorter

/-! ## Sinks over datasets -/

/-- A sink whose bytes lie in a dataset: an append is one to the dataset, or it fails before it reaches it. -/
structure Sink.Over (S : Sink σ) (heap : σ → Dataset UInt8) : Prop where
  size : ∀ s, S.size s = (heap s).size
  append : ∀ s new,
    (S.append new s).1 = (Dataset.append new (heap s)).1 ∧
        heap (S.append new s).2 = (Dataset.append new (heap s)).2 ∨
      ∃ e, (S.append new s).1 = .fail e ∧ heap (S.append new s).2 = heap s

theorem Sink.dataset_over : dataset.Over id where
  size _ := rfl
  append _ _ := .inl ⟨rfl, rfl⟩

theorem Sink.observed_over {S : Sink σ} {heap : σ → Dataset UInt8} (h : S.Over heap) (fails : Nat → Bool) :
    (observed S fails).Over fun s => heap s.sink where
  size s := h.size s.sink
  append s new := by
    simp only [observed]
    split
    · exact .inr ⟨_, rfl, rfl⟩
    · exact h.append s.sink new

theorem Sink.Over.holds {S : Sink σ} {heap : σ → Dataset UInt8} (h : S.Over heap) :
    S.Holds (fun s => (heap s).elements) (fun s => (heap s).Grows) (fun _ => True) (fun _ => True) where
  size s _ := by rw [h.size, Dataset.length_elements]
  append s new hs _ := by
    obtain ⟨hx, hheap⟩ | ⟨e, hx, hheap⟩ := h.append s new
    · rw [hx, hheap]
      by_cases hlen : (heap s).size + new.length < 2 ^ 64
      · obtain ⟨store, happend, hgrows, helements⟩ := hs.append_eq_ok hlen
        rw [happend]
        exact ⟨hgrows, .inl ⟨rfl, helements⟩⟩
      · rw [hs.append_eq_fail hlen]
        exact ⟨hs, .inr ⟨_, trivial, rfl, rfl⟩⟩
    · rw [hx, hheap]
      exact ⟨hs, .inr ⟨e, trivial, rfl, rfl⟩⟩
  shorter _ _ := trivial

end Ragged

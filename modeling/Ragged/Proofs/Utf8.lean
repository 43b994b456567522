import Ragged.Text.Utf8

/-!
# UTF-8

The byte strings that are decoded are the encodings of texts, each as the text that it encodes. A character is one to
four bytes, and `Encodes` lists their forms: the last bytes carry six bits each, and forms that are longer than needed,
surrogates and what lies above the last character are left out.
-/

namespace Ragged.Utf8

open String

/-! ## The forms of a character -/

inductive Encodes : List UInt8 → Nat → Prop
  | one {a : UInt8} (ha : a.toNat ≤ 0x7F) : Encodes [a] a.toNat
  | two {a b : UInt8} {y : Nat} (ha : 0xC2 ≤ a.toNat ∧ a.toNat ≤ 0xDF) (hb : tail? b = some y) :
      Encodes [a, b] ((a.toNat - 0xC0) * 64 + y)
  | three {a b c : UInt8} {y z : Nat} (ha : 0xE0 ≤ a.toNat ∧ a.toNat ≤ 0xEF) (hb : tailOfThree? a b = some y)
      (hc : tail? c = some z) : Encodes [a, b, c] ((a.toNat - 0xE0) * 4096 + y * 64 + z)
  | four {a b c d : UInt8} {y z w : Nat} (ha : 0xF0 ≤ a.toNat ∧ a.toNat ≤ 0xF4) (hb : tailOfFour? a b = some y)
      (hc : tail? c = some z) (hd : tail? d = some w) :
      Encodes [a, b, c, d] ((a.toNat - 0xF0) * 262144 + y * 4096 + z * 64 + w)

theorem tail?_eq_some {b : UInt8} {y : Nat} (h : tail? b = some y) :
    0x80 ≤ b.toNat ∧ b.toNat ≤ 0xBF ∧ b.toNat - 0x80 = y := by
  obtain ⟨hrange, hy⟩ := Option.ite_none_right_eq_some.mp h
  exact ⟨hrange.1, hrange.2, Option.some.inj hy⟩

theorem tailOfThree?_eq_some {a b : UInt8} {y : Nat} (h : tailOfThree? a b = some y) :
    (a.toNat = 0xE0 → 0xA0 ≤ b.toNat) ∧ (a.toNat = 0xED → b.toNat ≤ 0x9F) ∧ tail? b = some y := by
  obtain ⟨hform, hy⟩ := Option.ite_none_left_eq_some.mp h
  rw [not_or] at hform
  refine ⟨fun ha => Nat.le_of_not_lt fun hb => hform.1 ⟨?_, hb⟩,
    fun ha => Nat.le_of_not_lt fun hb => hform.2 ⟨?_, hb⟩, hy⟩
  · exact UInt8.toNat_inj.mp ha
  · exact UInt8.toNat_inj.mp ha

theorem tailOfFour?_eq_some {a b : UInt8} {y : Nat} (h : tailOfFour? a b = some y) :
    (a.toNat = 0xF0 → 0x90 ≤ b.toNat) ∧ (a.toNat = 0xF4 → b.toNat ≤ 0x8F) ∧ tail? b = some y := by
  obtain ⟨hform, hy⟩ := Option.ite_none_left_eq_some.mp h
  rw [not_or] at hform
  refine ⟨fun ha => Nat.le_of_not_lt fun hb => hform.1 ⟨?_, hb⟩,
    fun ha => Nat.le_of_not_lt fun hb => hform.2 ⟨?_, hb⟩, hy⟩
  · exact UInt8.toNat_inj.mp ha
  · exact UInt8.toNat_inj.mp ha

theorem toNat_ofNat {n : Nat} (h : n.isValidChar) : (Char.ofNat n).toNat = n := by
  unfold Char.ofNat
  rw [dif_pos h]
  rfl

theorem eq_ofNat {a : UInt8} {n : Nat} (h : a.toNat = n) : a = UInt8.ofNat n := by
  rw [← h, UInt8.ofNat_toNat]

theorem Encodes.isValidChar {bytes : List UInt8} {n : Nat} (h : Encodes bytes n) : n.isValidChar := by
  unfold Nat.isValidChar
  cases h with
  | one ha => omega
  | two ha hb =>
    have := tail?_eq_some hb
    omega
  | three ha hb hc =>
    have := tailOfThree?_eq_some hb
    have := tail?_eq_some this.2.2
    have := tail?_eq_some hc
    omega
  | four ha hb hc hd =>
    have := tailOfFour?_eq_some hb
    have := tail?_eq_some this.2.2
    have := tail?_eq_some hc
    have := tail?_eq_some hd
    omega

theorem Encodes.eq_encodeChar {bytes : List UInt8} {n : Nat} (h : Encodes bytes n) :
    bytes = utf8EncodeChar (Char.ofNat n) := by
  have hn : (Char.ofNat n).val.toNat = n := toNat_ofNat h.isValidChar
  unfold utf8EncodeChar
  rw [hn]
  cases h with
  | one ha => rw [if_pos ha, UInt8.ofNat_toNat]
  | two ha hb =>
    have := tail?_eq_some hb
    rw [if_neg (by omega), if_pos (by omega)]
    simp only [List.cons.injEq, and_true]
    exact ⟨eq_ofNat (by omega), eq_ofNat (by omega)⟩
  | three ha hb hc =>
    have := tailOfThree?_eq_some hb
    have := tail?_eq_some this.2.2
    have := tail?_eq_some hc
    rw [if_neg (by omega), if_neg (by omega), if_pos (by omega)]
    simp only [List.cons.injEq, and_true]
    exact ⟨eq_ofNat (by omega), eq_ofNat (by omega), eq_ofNat (by omega)⟩
  | four ha hb hc hd =>
    have := tailOfFour?_eq_some hb
    have := tail?_eq_some this.2.2
    have := tail?_eq_some hc
    have := tail?_eq_some hd
    rw [if_neg (by omega), if_neg (by omega), if_neg (by omega)]
    simp only [List.cons.injEq, and_true]
    exact ⟨eq_ofNat (by omega), eq_ofNat (by omega), eq_ofNat (by omega), eq_ofNat (by omega)⟩

theorem toNat_ofNat_add {k n : Nat} (h : k + n < 256) : (UInt8.ofNat (k + n)).toNat = k + n :=
  UInt8.toNat_ofNat_of_lt' h

theorem tail?_ofNat {k : Nat} (h : k < 64) : tail? (UInt8.ofNat (k + 0x80)) = some k := by
  unfold tail?
  rw [toNat_ofNat_add (by omega), if_pos (by omega), Nat.add_sub_cancel]

theorem tailOfThree?_ofNat {a : UInt8} {k : Nat} (hk : k < 64) (hlow : a.toNat = 0xE0 → 0x20 ≤ k)
    (hhigh : a.toNat = 0xED → k ≤ 0x1F) : tailOfThree? a (UInt8.ofNat (k + 0x80)) = some k := by
  unfold tailOfThree?
  rw [toNat_ofNat_add (by omega), if_neg, tail?_ofNat hk]
  rintro (⟨rfl, h⟩ | ⟨rfl, h⟩)
  · have := hlow rfl
    omega
  · have := hhigh rfl
    omega

theorem tailOfFour?_ofNat {a : UInt8} {k : Nat} (hk : k < 64) (hlow : a.toNat = 0xF0 → 0x10 ≤ k)
    (hhigh : a.toNat = 0xF4 → k ≤ 0x0F) : tailOfFour? a (UInt8.ofNat (k + 0x80)) = some k := by
  unfold tailOfFour?
  rw [toNat_ofNat_add (by omega), if_neg, tail?_ofNat hk]
  rintro (⟨rfl, h⟩ | ⟨rfl, h⟩)
  · have := hlow rfl
    omega
  · have := hhigh rfl
    omega

theorem encodes_encodeChar (c : Char) : Encodes (utf8EncodeChar c) c.toNat := by
  obtain ⟨v, hv⟩ : ∃ v, c.val.toNat = v := ⟨_, rfl⟩
  have hvalid : v.isValidChar := hv ▸ c.valid
  unfold Nat.isValidChar at hvalid
  show Encodes (utf8EncodeChar c) c.val.toNat
  unfold utf8EncodeChar
  rw [hv]
  dsimp only
  by_cases hone : v ≤ 0x7F
  · rw [if_pos hone]
    have ha : (UInt8.ofNat v).toNat = v := UInt8.toNat_ofNat_of_lt' (show v < 256 by omega)
    have h := Encodes.one (a := UInt8.ofNat v) (by omega)
    rwa [ha] at h
  · rw [if_neg hone]
    by_cases htwo : v ≤ 0x7FF
    · rw [if_pos htwo]
      have ha : (UInt8.ofNat (v / 64 % 32 + 0xC0)).toNat = v / 64 % 32 + 0xC0 := toNat_ofNat_add (by omega)
      have h := Encodes.two (a := UInt8.ofNat (v / 64 % 32 + 0xC0)) (by omega) (tail?_ofNat (k := v % 64) (by omega))
      rwa [ha, show (v / 64 % 32 + 0xC0 - 0xC0) * 64 + v % 64 = v by omega] at h
    · rw [if_neg htwo]
      by_cases hthree : v ≤ 0xFFFF
      · rw [if_pos hthree]
        have ha : (UInt8.ofNat (v / 4096 % 16 + 0xE0)).toNat = v / 4096 % 16 + 0xE0 := toNat_ofNat_add (by omega)
        have h := Encodes.three (a := UInt8.ofNat (v / 4096 % 16 + 0xE0)) (by omega)
          (tailOfThree?_ofNat (k := v / 64 % 64) (by omega) (by omega) (by omega))
          (tail?_ofNat (k := v % 64) (by omega))
        rwa [ha, show (v / 4096 % 16 + 0xE0 - 0xE0) * 4096 + v / 64 % 64 * 64 + v % 64 = v by omega] at h
      · rw [if_neg hthree]
        have ha : (UInt8.ofNat (v / 262144 % 8 + 0xF0)).toNat = v / 262144 % 8 + 0xF0 := toNat_ofNat_add (by omega)
        have h := Encodes.four (a := UInt8.ofNat (v / 262144 % 8 + 0xF0)) (by omega)
          (tailOfFour?_ofNat (k := v / 4096 % 64) (by omega) (by omega) (by omega))
          (tail?_ofNat (k := v / 64 % 64) (by omega)) (tail?_ofNat (k := v % 64) (by omega))
        rwa [ha, show (v / 262144 % 8 + 0xF0 - 0xF0) * 262144 + v / 4096 % 64 * 4096 + v / 64 % 64 * 64 + v % 64 = v by
          omega] at h

/-! ## Pieces -/

theorem Encodes.pieces_eq {bytes : List UInt8} {n : Nat} (h : Encodes bytes n) (rest : List UInt8) :
    pieces (bytes ++ rest) = .char (Char.ofNat n) :: pieces rest := by
  cases h with
  | @one a ha =>
    rw [List.singleton_append, pieces.eq_def (a :: rest)]
    exact if_pos ha
  | @two a b y ha hb =>
    show pieces (a :: b :: rest) = _
    rw [pieces.eq_def (a :: b :: rest)]
    dsimp only
    rw [if_neg (by omega), if_pos ha, hb]
  | @three a b c y z ha hb hc =>
    show pieces (a :: b :: c :: rest) = _
    rw [pieces.eq_def (a :: b :: c :: rest)]
    dsimp only
    rw [if_neg (by omega), if_neg (by omega), if_pos ha]
    simp only [hb, hc]
  | @four a b c d y z w ha hb hc hd =>
    show pieces (a :: b :: c :: d :: rest) = _
    rw [pieces.eq_def (a :: b :: c :: d :: rest)]
    dsimp only
    rw [if_neg (by omega), if_neg (by omega), if_neg (by omega), if_pos ha]
    simp only [hb, hc, hd]

theorem pieces_encodeChar (c : Char) (rest : List UInt8) :
    pieces (utf8EncodeChar c ++ rest) = .char c :: pieces rest := by
  rw [(encodes_encodeChar c).pieces_eq, Char.ofNat_toNat]

theorem pieces_flatMap (cs : List Char) : pieces (cs.flatMap utf8EncodeChar) = cs.map .char := by
  induction cs with
  | nil => rfl
  | cons c cs ih => rw [List.flatMap_cons, pieces_encodeChar, ih, List.map_cons]

theorem Encodes.append_eq {bytes rest : List UInt8} {n : Nat} (henc : Encodes bytes n) {ps : List Piece}
    {cs : List Char} (h : .char (Char.ofNat n) :: ps = cs.map Piece.char)
    (hrest : ∀ cs : List Char, ps = cs.map .char → rest = cs.flatMap utf8EncodeChar) :
    bytes ++ rest = cs.flatMap utf8EncodeChar := by
  cases cs with
  | nil => cases h
  | cons c cs =>
    rw [List.map_cons, List.cons.injEq, Piece.char.injEq] at h
    rw [List.flatMap_cons, ← h.1, ← henc.eq_encodeChar, hrest cs h.2]

/-- Only what encodes characters has no ill-formed part. -/
theorem eq_flatMap_of_pieces {bytes : List UInt8} {cs : List Char} (h : pieces bytes = cs.map .char) :
    bytes = cs.flatMap utf8EncodeChar := by
  fun_induction pieces bytes generalizing cs with
  | case1 =>
    obtain rfl := List.map_eq_nil_iff.mp h.symm
    rfl
  | case2 a rest ha ih => exact (Encodes.one ha).append_eq h fun _ => ih
  | case5 a _ ha b rest y hb ih => exact (Encodes.two ha hb).append_eq h fun _ => ih
  | case10 a _ _ ha b y c rest hb z hc ih => exact (Encodes.three ha hb hc).append_eq h fun _ => ih
  | case17 a _ _ _ ha b y c hb z d rest hc w hd ih => exact (Encodes.four ha hb hc hd).append_eq h fun _ => ih
  | case3 | case4 | case6 | case7 | case8 | case9 | case11 | case12 | case13 | case14 | case15 | case16 | case18 =>
    cases cs <;> simp at h

/-! ## Texts -/

theorem decodeFrom_chars (start : Nat) (cs : List Char) : decodeFrom start (cs.map .char) = .ok cs := by
  induction cs generalizing start with
  | nil => rfl
  | cons c cs ih =>
    rw [List.map_cons, decodeFrom, ih]
    rfl

theorem pieces_of_decodeFrom {start : Nat} {ps : List Piece} {cs : List Char} (h : decodeFrom start ps = .ok cs) :
    ps = cs.map .char := by
  fun_induction decodeFrom start ps generalizing cs with
  | case1 =>
    cases h
    rfl
  | case2 start c rest ih =>
    cases hrest : decodeFrom (start + c.utf8Size) rest with
    | ok cs' =>
      rw [hrest] at h
      cases h
      rw [ih hrest, List.map_cons]
    | error fault =>
      rw [hrest] at h
      cases h
  | case3 => cases h
  | case4 => cases h

theorem decode_encode (s : String) : decode (encode s) = .ok s := by
  rw [decode, encode, pieces_flatMap, decodeFrom_chars]
  exact congrArg Except.ok String.ofList_toList

theorem decode_eq_ok {bytes : List UInt8} {s : String} : decode bytes = .ok s ↔ bytes = encode s := by
  constructor
  · intro h
    cases hchars : decodeFrom 0 (pieces bytes) with
    | ok cs =>
      rw [decode, hchars] at h
      cases h
      rw [encode, String.toList_ofList]
      exact eq_flatMap_of_pieces (pieces_of_decodeFrom hchars)
    | error fault =>
      rw [decode, hchars] at h
      cases h
  · rintro rfl
    exact decode_encode s

end Ragged.Utf8

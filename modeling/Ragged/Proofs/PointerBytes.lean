import Mathlib.Algebra.Order.Ring.Nat
import Ragged.Pointer.Basic

/-!
# Pointers as bytes

Lists of pointers and rows of bytes correspond to each other, sixteen bytes for every pointer. A row of any other length
stands for no pointers. Reading goes over the bytes with a cursor that takes eight of them for a word: it never takes
bytes that are not there, and stops before the first byte that is left only if there is none.
-/

namespace Ragged

/-! ## Numbers as bytes -/

namespace Bytes

theorem length_ofNat (width n : Nat) : (ofNat width n).length = width := by
  induction width generalizing n with
  | zero => rfl
  | succ width ih => rw [ofNat, List.length_cons, ih]

theorem toNat_ofNat (width n : Nat) : toNat (ofNat width n) = n % 256 ^ width := by
  induction width generalizing n with
  | zero =>
    rw [Nat.pow_zero, Nat.mod_one]
    rfl
  | succ width ih =>
    have hbyte : (UInt8.ofNat n).toNat = n % 256 := UInt8.toNat_ofNat'
    rw [ofNat, toNat, ih, hbyte, Nat.pow_succ', Nat.mod_mul]

theorem toNat_lt (bytes : List UInt8) : toNat bytes < 256 ^ bytes.length := by
  induction bytes with
  | nil => exact Nat.one_pos
  | cons b bytes ih =>
    have hb := b.toNat_lt
    rw [toNat, List.length_cons, Nat.pow_succ']
    omega

theorem ofNat_toNat (bytes : List UInt8) : ofNat bytes.length (toNat bytes) = bytes := by
  induction bytes with
  | nil => rfl
  | cons b bytes ih =>
    have hb := b.toNat_lt
    have hlow : UInt8.ofNat (b.toNat + 256 * toNat bytes) = b := by
      apply UInt8.toNat_inj.mp
      rw [UInt8.toNat_ofNat']
      omega
    have hhigh : (b.toNat + 256 * toNat bytes) / 256 = toNat bytes := by omega
    rw [List.length_cons, toNat, ofNat, hlow, hhigh, ih]

theorem getElem?_ofNat {width i : Nat} (n : Nat) (hi : i < width) :
    (ofNat width n)[i]? = some (UInt8.ofNat (n / 256 ^ i)) := by
  induction width generalizing i n with
  | zero => cases hi
  | succ width ih =>
    cases i with
    | zero => rw [Nat.pow_zero, Nat.div_one, ofNat, List.getElem?_cons_zero]
    | succ i =>
      rw [ofNat, List.getElem?_cons_succ, ih _ (Nat.lt_of_succ_lt_succ hi), Nat.div_div_eq_div_mul, ← Nat.pow_succ']

theorem word_ofNat (w : UInt64) : UInt64.ofNat (toNat (ofNat 8 w.toNat)) = w := by
  rw [toNat_ofNat, Nat.mod_eq_of_lt (show w.toNat < 256 ^ 8 from w.toNat_lt), UInt64.ofNat_toNat]

theorem ofNat_word {bytes : List UInt8} (h : bytes.length = 8) :
    ofNat 8 (UInt64.ofNat (toNat bytes)).toNat = bytes := by
  have hlt := toNat_lt bytes
  have hback := ofNat_toNat bytes
  rw [h] at hlt hback
  rw [UInt64.toNat_ofNat', Nat.mod_eq_of_lt (show toNat bytes < 2 ^ 64 from hlt), hback]

end Bytes

namespace Pointer

/-! ## One pointer -/

theorem length_toBytes (p : Pointer) : p.toBytes.length = width := by
  rw [toBytes, List.length_append, Bytes.length_ofNat, Bytes.length_ofNat]
  rfl

theorem getElem?_toBytes (p : Pointer) {i : Nat} (hi : i < 8) :
    p.toBytes[i]? = some (UInt8.ofNat (p.offset.toNat / 256 ^ i)) ∧
      p.toBytes[8 + i]? = some (UInt8.ofNat (p.length.toNat / 256 ^ i)) := by
  have hlen := Bytes.length_ofNat 8 p.offset.toNat
  constructor
  · rw [toBytes, List.getElem?_append_left (by omega), Bytes.getElem?_ofNat _ hi]
  · rw [toBytes, List.getElem?_append_right (by omega), hlen, Nat.add_sub_cancel_left, Bytes.getElem?_ofNat _ hi]

theorem ofBytes_toBytes (p : Pointer) : ofBytes p.toBytes = p := by
  have hoffset := Bytes.length_ofNat 8 p.offset.toNat
  have hlength := Bytes.length_ofNat 8 p.length.toNat
  rw [ofBytes, toBytes, List.take_left' hoffset, List.drop_left' hoffset, List.take_of_length_le (by omega),
    Bytes.word_ofNat, Bytes.word_ofNat]

theorem toBytes_ofBytes {bytes : List UInt8} (h : bytes.length = width) : (ofBytes bytes).toBytes = bytes := by
  have hlen : bytes.length = 16 := h
  have hoffset : (bytes.take 8).length = 8 := by
    rw [List.length_take]
    omega
  have hlength : (bytes.drop 8).length = 8 := by
    rw [List.length_drop]
    omega
  rw [ofBytes, toBytes, List.take_of_length_le (Nat.le_of_eq hlength), Bytes.ofNat_word hoffset, Bytes.ofNat_word hlength,
    List.take_append_drop]

/-! ## Rows of pointers -/

theorem encode_cons (p : Pointer) (ps : List Pointer) : encode (p :: ps) = p.toBytes ++ encode ps := rfl

theorem encode_append (ps qs : List Pointer) : encode (ps ++ qs) = encode ps ++ encode qs :=
  List.flatMap_append

theorem length_encode (ps : List Pointer) : (encode ps).length = width * ps.length := by
  induction ps with
  | nil => rfl
  | cons p ps ih => rw [encode_cons, List.length_append, length_toBytes, ih, List.length_cons, Nat.mul_succ, Nat.add_comm]

theorem decodeMany_encode (ps : List Pointer) : decodeMany ps.length (encode ps) = ps := by
  induction ps with
  | nil => rfl
  | cons p ps ih =>
    have hp := p.length_toBytes
    rw [List.length_cons, encode_cons, decodeMany, List.take_left' hp, List.drop_left' hp, ofBytes_toBytes, ih]

theorem encode_decodeMany {n : Nat} {bytes : List UInt8} (h : bytes.length = width * n) :
    encode (decodeMany n bytes) = bytes := by
  induction n generalizing bytes with
  | zero => exact (List.eq_nil_of_length_eq_zero h).symm
  | succ n ih =>
    rw [Nat.mul_succ] at h
    have hhead : (bytes.take width).length = width := by
      rw [List.length_take]
      omega
    have hrest : (bytes.drop width).length = width * n := by
      rw [List.length_drop]
      omega
    rw [decodeMany, encode_cons, toBytes_ofBytes hhead, ih hrest, List.take_append_drop]

theorem length_decodeMany (n : Nat) (bytes : List UInt8) : (decodeMany n bytes).length = n := by
  induction n generalizing bytes with
  | zero => rfl
  | succ n ih => rw [decodeMany, List.length_cons, ih]

theorem getElem?_decodeMany {n i : Nat} (bytes : List UInt8) (hi : i < n) :
    (decodeMany n bytes)[i]? = some (ofBytes ((bytes.drop (width * i)).take width)) := by
  induction n generalizing i bytes with
  | zero => cases hi
  | succ n ih =>
    cases i with
    | zero => rfl
    | succ i =>
      rw [decodeMany, List.getElem?_cons_succ, ih _ (Nat.lt_of_succ_lt_succ hi), List.drop_drop, Nat.mul_succ,
        Nat.add_comm (width * i)]

theorem decode_of_length {bytes : List UInt8} {n : Nat} (h : bytes.length = width * n) :
    decode bytes = .ok (decodeMany n bytes) := by
  rw [decode, h, if_pos (Nat.mul_mod_right width n), Nat.mul_div_cancel_left n (by decide)]

theorem decode_cases (bytes : List UInt8) :
    (∃ n, bytes.length = width * n ∧ decode bytes = .ok (decodeMany n bytes)) ∨
      (¬ width ∣ bytes.length ∧ decode bytes =
        .fail (.undecodable s!"{bytes.length} bytes is not a whole number of {width} byte pointer records")) := by
  by_cases h : width ∣ bytes.length
  · obtain ⟨n, hn⟩ := h
    exact .inl ⟨n, hn, decode_of_length hn⟩
  · exact .inr ⟨h, if_neg fun hmod => h (Nat.dvd_of_mod_eq_zero hmod)⟩

/-! ## The cursor -/

def drawWord (bytes : List UInt8) : Outcome (UInt64 × List UInt8) :=
  if bytes.length < 8 then .trap else .ok (UInt64.ofNat (Bytes.toNat (bytes.take 8)), bytes.drop 8)

def draw (bytes : List UInt8) : Outcome (Pointer × List UInt8) := do
  let (offset, bytes) ← drawWord bytes
  let (length, bytes) ← drawWord bytes
  return (⟨offset, length⟩, bytes)

/-- Draws pointers until no byte is left, and traps if this takes more than so many draws. -/
def drawAll : Nat → List UInt8 → Outcome (List Pointer)
  | 0, bytes => if bytes = [] then .ok [] else .trap
  | n + 1, bytes =>
    if bytes = [] then .ok []
    else do
      let (p, bytes) ← draw bytes
      return p :: (← drawAll n bytes)

/-- `decode` with a cursor. Every draw moves it on, so as many draws as there are bytes are enough. -/
def decodeDrawing (bytes : List UInt8) : Outcome (List Pointer) :=
  if bytes.length % width = 0 then drawAll bytes.length bytes
  else .fail (.undecodable s!"{bytes.length} bytes is not a whole number of {width} byte pointer records")

theorem drawWord_append {word : List UInt8} (h : word.length = 8) (rest : List UInt8) :
    drawWord (word ++ rest) = .ok (UInt64.ofNat (Bytes.toNat word), rest) := by
  rw [drawWord, if_neg (by rw [List.length_append]; omega), List.take_left' h, List.drop_left' h]

theorem draw_toBytes_append (p : Pointer) (rest : List UInt8) : draw (p.toBytes ++ rest) = .ok (p, rest) := by
  rw [draw, toBytes, List.append_assoc, drawWord_append (Bytes.length_ofNat _ _), Outcome.ok_bind]
  dsimp only
  rw [drawWord_append (Bytes.length_ofNat _ _), Outcome.ok_bind, Bytes.word_ofNat, Bytes.word_ofNat]
  rfl

theorem drawAll_encode {n : Nat} {ps : List Pointer} (h : ps.length ≤ n) : drawAll n (encode ps) = .ok ps := by
  induction ps generalizing n with
  | nil => cases n <;> rfl
  | cons p ps ih =>
    obtain ⟨n, rfl⟩ : ∃ m, n = m + 1 := ⟨n - 1, by rw [List.length_cons] at h; omega⟩
    have hsome : encode (p :: ps) ≠ [] := by
      rw [← List.length_pos_iff, length_encode]
      exact Nat.mul_pos (by decide) (Nat.succ_pos _)
    rw [drawAll, if_neg hsome, encode_cons, draw_toBytes_append, Outcome.ok_bind]
    dsimp only
    rw [ih (Nat.le_of_succ_le_succ h)]
    rfl

theorem decodeDrawing_eq (bytes : List UInt8) : decodeDrawing bytes = decode bytes := by
  by_cases h : bytes.length % width = 0
  · obtain ⟨n, hn⟩ := Nat.dvd_of_mod_eq_zero h
    have hdraws : (decodeMany n bytes).length ≤ bytes.length := by
      rw [length_decodeMany, hn]
      exact Nat.le_mul_of_pos_left n (by decide)
    have hall := drawAll_encode hdraws
    rw [encode_decodeMany hn] at hall
    rw [decodeDrawing, if_pos h, decode_of_length hn, hall]
  · rw [decodeDrawing, decode, if_neg h, if_neg h]

/-- Encoding is a correspondence. A pointer takes sixteen bytes, its offset and its length with the lowest byte first,
and sixteen bytes are a pointer. A list of pointers is encoded one after the other, part by part, and read back. A row
of bytes is read, by a cursor too, if and only if it can be cut into sixteens; it is then what its pointers are encoded
to, each of them from its own sixteen bytes. -/
theorem encoded_both_ways :
    (∀ p : Pointer, p.toBytes.length = 16 ∧ ofBytes p.toBytes = p ∧ ∀ i, i < 8 →
      p.toBytes[i]? = some (UInt8.ofNat (p.offset.toNat / 256 ^ i)) ∧
      p.toBytes[8 + i]? = some (UInt8.ofNat (p.length.toNat / 256 ^ i))) ∧
    (∀ bytes : List UInt8, bytes.length = 16 →
      (ofBytes bytes).toBytes = bytes ∧ draw bytes = .ok (ofBytes bytes, [])) ∧
    (∀ ps, decode (encode ps) = .ok ps ∧ encode ps = (ps.map toBytes).flatten) ∧
    (∀ ps qs, encode (ps ++ qs) = encode ps ++ encode qs) ∧
    ∀ bytes : List UInt8,
      decodeDrawing bytes = decode bytes ∧
      ((∃ ps, decode bytes = .ok ps) ↔ 16 ∣ bytes.length) ∧
      (¬ 16 ∣ bytes.length → decode bytes =
        .fail (.undecodable s!"{bytes.length} bytes is not a whole number of {width} byte pointer records")) ∧
      ∀ ps, decode bytes = .ok ps → encode ps = bytes ∧ bytes.length = 16 * ps.length ∧
        ∀ i, i < ps.length → ps[i]? = some (ofBytes ((bytes.drop (16 * i)).take 16)) := by
  refine ⟨fun p => ⟨p.length_toBytes, p.ofBytes_toBytes, fun i hi => p.getElem?_toBytes hi⟩, ?_, ?_, encode_append, ?_⟩
  · intro bytes h
    have hback := toBytes_ofBytes h
    have hdraw := draw_toBytes_append (ofBytes bytes) []
    rw [hback, List.append_nil] at hdraw
    exact ⟨hback, hdraw⟩
  · intro ps
    rw [decode_of_length (length_encode ps), decodeMany_encode]
    exact ⟨rfl, List.flatMap_def⟩
  · intro bytes
    refine ⟨decodeDrawing_eq bytes, ?_⟩
    rcases decode_cases bytes with ⟨n, hn, hok⟩ | ⟨hn, hfail⟩
    · have hlen := length_decodeMany n bytes
      rw [hok]
      refine ⟨iff_of_true ⟨_, rfl⟩ ⟨n, hn⟩, fun hnot => absurd ⟨n, hn⟩ hnot, fun ps hps => ?_⟩
      obtain rfl := Outcome.ok.inj hps
      refine ⟨encode_decodeMany hn, ?_, fun i hi => getElem?_decodeMany bytes (hlen ▸ hi)⟩
      rw [hlen]
      exact hn
    · rw [hfail]
      refine ⟨iff_of_false ?_ hn, fun _ => rfl, fun ps hps => nomatch hps⟩
      rintro ⟨ps, hps⟩
      cases hps

theorem encoded_both_ways_two_pointers :
    encode [⟨0x0102, 7⟩, ⟨0, 3⟩] = [2, 1, 0, 0, 0, 0, 0, 0, 7, 0, 0, 0, 0, 0, 0, 0] ++ encode [⟨0, 3⟩] ∧
    decode (encode [⟨0x0102, 7⟩, ⟨0, 3⟩]) = .ok [⟨0x0102, 7⟩, ⟨0, 3⟩] ∧
    decode ((encode [⟨0x0102, 7⟩, ⟨0, 3⟩]).take 20) =
      .fail (.undecodable "20 bytes is not a whole number of 16 byte pointer records") := by
  obtain ⟨-, -, hlists, hparts, hrows⟩ := encoded_both_ways
  refine ⟨hparts [⟨0x0102, 7⟩] [⟨0, 3⟩], (hlists _).1, ?_⟩
  exact (hrows _).2.2.1 (by decide)

end Pointer

end Ragged

import SchemaOverlay.Text.Utf8
import Mathlib.Data.List.Basic

/-!
UTF-8 there and back: the bytes of a text are read as the text.
-/
namespace SchemaOverlay.Text

theorem toNat_byte {n : Nat} (small : n < 256) : (UInt8.ofNat n).toNat = n := by
  rw [UInt8.toNat_ofNat', Nat.mod_eq_of_lt small]

theorem toNat_cases (c : Char) :
    c.toNat < 0xD800 ∨ 0xE000 ≤ c.toNat ∧ c.toNat < 0x110000 := by
  have valid := c.valid
  simp only [UInt32.isValidChar, Nat.isValidChar] at valid
  change c.toNat < 0xD800 ∨ 0xDFFF < c.toNat ∧ c.toNat < 0x110000 at valid
  omega

def tailByte (n : Nat) : UInt8 := .ofNat (0x80 + n % 64)

theorem toNat_tailByte (n : Nat) : (tailByte n).toNat = 0x80 + n % 64 := toNat_byte (by omega)

theorem isTail_tailByte (n : Nat) : isTail (tailByte n) = true := by
  simp only [isTail, Bool.and_eq_true, decide_eq_true_eq, UInt8.le_iff_toNat_le, toNat_tailByte]
  simp only [UInt8.reduceToNat]
  omega

theorem tailBits_tailByte (n : Nat) : tailBits (tailByte n) = n % 64 := by
  rw [tailBits, toNat_tailByte]
  omega

section Decode

variable {start n : Nat} {a b : UInt8} {rest : List UInt8}

theorem decodeFrom_one (lead : a.toNat = n) (small : n < 0x80) :
    decodeFrom start (a :: rest) = (Char.ofNat n :: ·) <$> decodeFrom (start + 1) rest := by
  rw [decodeFrom.eq_def]
  dsimp only
  rw [if_pos, lead]
  rw [UInt8.lt_iff_toNat_lt, lead]
  exact small

theorem decodeFrom_two (lead : a.toNat = 0xC0 + n / 64) (large : 0x80 ≤ n) (small : n < 0x800) :
    decodeFrom start (a :: tailByte n :: rest) =
      (Char.ofNat n :: ·) <$> decodeFrom (start + 2) rest := by
  have value : (0xC0 + n / 64) % 32 * 64 + n % 64 = n := by omega
  rw [decodeFrom.eq_def]
  dsimp only
  rw [if_neg, if_pos, if_pos (isTail_tailByte n), lead, tailBits_tailByte, value]
  · simp only [Bool.and_eq_true, decide_eq_true_eq, UInt8.le_iff_toNat_le, lead, UInt8.reduceToNat]
    omega
  · simp only [UInt8.lt_iff_toNat_lt, lead, UInt8.reduceToNat]
    omega

theorem isSecondOfThree_tailByte (lead : a.toNat = 0xE0 + n / 4096) (large : 0x800 ≤ n)
    (valid : n < 0xD800 ∨ 0xE000 ≤ n ∧ n < 0x10000) :
    isSecondOfThree a (tailByte (n / 64)) = true := by
  unfold isSecondOfThree
  simp only [← UInt8.toNat_inj, lead, UInt8.reduceToNat]
  split
  · simp only [Bool.and_eq_true, decide_eq_true_eq, UInt8.le_iff_toNat_le, toNat_tailByte,
      UInt8.reduceToNat]
    omega
  · split
    · simp only [Bool.and_eq_true, decide_eq_true_eq, UInt8.le_iff_toNat_le, toNat_tailByte,
        UInt8.reduceToNat]
      omega
    · exact isTail_tailByte _

theorem decodeFrom_three (lead : a.toNat = 0xE0 + n / 4096) (large : 0x800 ≤ n)
    (valid : n < 0xD800 ∨ 0xE000 ≤ n ∧ n < 0x10000) :
    decodeFrom start (a :: tailByte (n / 64) :: tailByte n :: rest) =
      (Char.ofNat n :: ·) <$> decodeFrom (start + 3) rest := by
  have value : ((0xE0 + n / 4096) % 16 * 64 + n / 64 % 64) * 64 + n % 64 = n := by omega
  rw [decodeFrom.eq_def]
  dsimp only
  rw [if_neg, if_neg, if_pos, if_pos (isSecondOfThree_tailByte lead large valid),
    if_pos (isTail_tailByte n), lead, tailBits_tailByte, tailBits_tailByte, value]
  · simp only [Bool.and_eq_true, decide_eq_true_eq, UInt8.le_iff_toNat_le, lead, UInt8.reduceToNat]
    omega
  · simp only [Bool.and_eq_true, decide_eq_true_eq, UInt8.le_iff_toNat_le, lead, UInt8.reduceToNat]
    omega
  · simp only [UInt8.lt_iff_toNat_lt, lead, UInt8.reduceToNat]
    omega

theorem isSecondOfFour_tailByte (lead : a.toNat = 0xF0 + n / 262144) (large : 0x10000 ≤ n)
    (valid : n < 0x110000) : isSecondOfFour a (tailByte (n / 4096)) = true := by
  unfold isSecondOfFour
  simp only [← UInt8.toNat_inj, lead, UInt8.reduceToNat]
  split
  · simp only [Bool.and_eq_true, decide_eq_true_eq, UInt8.le_iff_toNat_le, toNat_tailByte,
      UInt8.reduceToNat]
    omega
  · split
    · simp only [Bool.and_eq_true, decide_eq_true_eq, UInt8.le_iff_toNat_le, toNat_tailByte,
        UInt8.reduceToNat]
      omega
    · exact isTail_tailByte _

theorem decodeFrom_four (lead : a.toNat = 0xF0 + n / 262144) (large : 0x10000 ≤ n)
    (valid : n < 0x110000) :
    decodeFrom start (a :: tailByte (n / 4096) :: tailByte (n / 64) :: tailByte n :: rest) =
      (Char.ofNat n :: ·) <$> decodeFrom (start + 4) rest := by
  have value : (((0xF0 + n / 262144) % 8 * 64 + n / 4096 % 64) * 64 + n / 64 % 64) * 64 + n % 64 = n := by
    omega
  rw [decodeFrom.eq_def]
  dsimp only
  rw [if_neg, if_neg, if_neg, if_pos, if_pos (isSecondOfFour_tailByte lead large valid),
    if_pos (isTail_tailByte _), if_pos (isTail_tailByte n), lead, tailBits_tailByte,
    tailBits_tailByte, tailBits_tailByte, value]
  · simp only [Bool.and_eq_true, decide_eq_true_eq, UInt8.le_iff_toNat_le, lead, UInt8.reduceToNat]
    omega
  · simp only [Bool.and_eq_true, decide_eq_true_eq, UInt8.le_iff_toNat_le, lead, UInt8.reduceToNat]
    omega
  · simp only [Bool.and_eq_true, decide_eq_true_eq, UInt8.le_iff_toNat_le, lead, UInt8.reduceToNat]
    omega
  · simp only [UInt8.lt_iff_toNat_lt, lead, UInt8.reduceToNat]
    omega

end Decode

theorem decodeFrom_encodeChar (start : Nat) (c : Char) (rest : List UInt8) :
    decodeFrom start (encodeChar c ++ rest) =
      (c :: ·) <$> decodeFrom (start + (encodeChar c).length) rest := by
  have valid := toNat_cases c
  have whole : (c :: · : List Char → List Char) = (Char.ofNat c.toNat :: ·) := by
    rw [Char.ofNat_toNat]
  rw [whole]
  unfold encodeChar
  dsimp only
  by_cases one : c.toNat < 0x80
  · simp only [if_pos one]
    exact decodeFrom_one (n := c.toNat) (toNat_byte (by omega)) one
  · by_cases two : c.toNat < 0x800
    · simp only [if_neg one, if_pos two]
      exact decodeFrom_two (n := c.toNat) (toNat_byte (by omega)) (by omega) two
    · by_cases three : c.toNat < 0x10000
      · simp only [if_neg one, if_neg two, if_pos three]
        exact decodeFrom_three (n := c.toNat) (toNat_byte (by omega)) (by omega) (by omega)
      · simp only [if_neg one, if_neg two, if_neg three]
        exact decodeFrom_four (n := c.toNat) (toNat_byte (by omega)) (by omega) (by omega)

theorem decodeFrom_encode (start : Nat) (cs : List Char) :
    decodeFrom start (cs.flatMap encodeChar) = .ok cs := by
  induction cs generalizing start with
  | nil => rfl
  | cons c rest ih =>
    rw [List.flatMap_cons, decodeFrom_encodeChar, ih]
    rfl

/-- The bytes of a text are read as the text. -/
theorem decodeUtf8_encodeUtf8 (text : String) : decodeUtf8 (encodeUtf8 text) = .ok text := by
  rw [decodeUtf8, encodeUtf8, decodeFrom_encode]
  exact congrArg Except.ok String.ofList_toList

end SchemaOverlay.Text

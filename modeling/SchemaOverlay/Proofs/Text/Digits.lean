import SchemaOverlay.Text.Basic
import Mathlib.Data.Nat.Digits.Defs

/-!
The decimal digits of a number and the number that digits write: the first are read back as the
number, zeros in front change nothing, and each zero behind multiplies by ten.
-/
namespace SchemaOverlay.Text

theorem digitValue_le {c : Char} (digit : c.isDigit = true) : digitValue c ≤ 9 := by
  simp only [Char.isDigit, Bool.and_eq_true, decide_eq_true_eq] at digit
  have upper : c.toNat ≤ 57 := UInt32.le_iff_toNat_le.mp digit.2
  have zero : '0'.toNat = 48 := rfl
  rw [digitValue]
  omega

theorem isDigit_of_mem_toDigits {n : Nat} {c : Char} (member : c ∈ Nat.toDigits 10 n) :
    c.isDigit = true :=
  Nat.isDigit_of_mem_toDigits (by omega) (by omega) member

theorem head_toDigits {n : Nat} (positive : 0 < n) :
    ∃ c rest, Nat.toDigits 10 n = c :: rest ∧ 1 ≤ digitValue c := by
  induction n using Nat.strongRecOn with
  | ind n ih =>
    by_cases small : n < 10
    · rw [Nat.toDigits_of_lt_base small]
      have values : ∀ n < 10, 0 < n → 1 ≤ digitValue n.digitChar := by decide
      exact ⟨_, [], rfl, values n small positive⟩
    · obtain ⟨c, rest, shape, leading⟩ := ih (n / 10) (by omega) (by omega)
      rw [Nat.toDigits_of_base_le (by omega) (by omega), shape]
      exact ⟨c, rest ++ [(n % 10).digitChar], rfl, leading⟩

theorem digitsValue_append (front back : List Char) :
    digitsValue (front ++ back) =
      back.foldl (fun n c => n * 10 + digitValue c) (digitsValue front) := by
  rw [digitsValue, List.foldl_append, digitsValue]

theorem digitsValue_toDigits (n : Nat) : digitsValue (Nat.toDigits 10 n) = n := by
  induction n using Nat.strongRecOn with
  | ind n ih =>
    have values : ∀ n < 10, digitValue n.digitChar = n := by decide
    by_cases small : n < 10
    · rw [Nat.toDigits_of_lt_base small]
      exact (Nat.zero_add _).trans (values n small)
    · rw [Nat.toDigits_of_base_le (by omega) (by omega), digitsValue_append, ih _ (by omega)]
      change n / 10 * 10 + digitValue (n % 10).digitChar = n
      rw [values _ (Nat.mod_lt _ (by omega))]
      omega

theorem digitsValue_zeros_append (k : Nat) (digits : List Char) :
    digitsValue (List.replicate k '0' ++ digits) = digitsValue digits := by
  induction k with
  | zero => rfl
  | succ k ih =>
    rw [List.replicate_succ, List.cons_append]
    exact ih

theorem toDigits_mul_pow {n : Nat} (positive : 0 < n) (k : Nat) :
    Nat.toDigits 10 (n * 10 ^ k) = Nat.toDigits 10 n ++ List.replicate k '0' := by
  induction k with
  | zero => simp
  | succ k ih =>
    have longer := Nat.toDigits_append_toDigits (b := 10) (n := n * 10 ^ k) (d := 0) (by omega)
      (by positivity) (by omega)
    have zero : Nat.toDigits 10 0 = ['0'] := rfl
    rw [Nat.pow_succ, ← Nat.mul_assoc, Nat.mul_comm _ 10, ← Nat.add_zero (10 * _), ← longer, ih,
      zero, List.append_assoc, List.replicate_succ']

end SchemaOverlay.Text

import SchemaOverlay.Number.Binary64
import Mathlib.Algebra.Order.Field.Power
import Mathlib.Algebra.Order.Field.Rat
import Mathlib.Data.Rat.Cast.Order
import Mathlib.Tactic.FieldSimp
import Mathlib.Tactic.Linarith
import Mathlib.Tactic.NormNum
import Mathlib.Tactic.Positivity
import Mathlib.Tactic.Push
import Mathlib.Tactic.Ring

/-!
Rounding to binary64. Every magnitude that rounding gives has its leading bit in the highest place
or the least exponent, and a number no further from such a magnitude than half the distance to its
neighbours is rounded to it; at exactly half the distance the mantissa has to be even.
-/
namespace SchemaOverlay

/-- The magnitudes in the form that rounding gives them. -/
def Magnitude.Canonical : Magnitude → Prop
  | .infinite => True
  | .finite m e => m < 2 ^ 53 ∧ Binary64.minExponent ≤ e ∧ e ≤ Binary64.maxExponent ∧
      (2 ^ 52 ≤ m ∨ e = Binary64.minExponent)

namespace Binary64

/-- Whether `q` is an integer nearest to `w`, and the even one of two. -/
def Nearest (q : Nat) (w : ℚ) : Prop :=
  if q % 2 = 0 then (q : ℚ) - 1 / 2 ≤ w ∧ w ≤ q + 1 / 2 else (q : ℚ) - 1 / 2 < w ∧ w < q + 1 / 2

theorem Nearest.bounds {q : Nat} {w : ℚ} (near : Nearest q w) :
    (q : ℚ) - 1 / 2 ≤ w ∧ w ≤ q + 1 / 2 := by
  unfold Nearest at near
  split at near
  · exact near
  · exact ⟨near.1.le, near.2.le⟩

/-- Two nearest integers would be neighbours, and one of them odd. -/
theorem Nearest.unique {q r : Nat} {w : ℚ} (near : Nearest q w) (near' : Nearest r w) : q = r := by
  obtain ⟨low, high⟩ := near.bounds
  obtain ⟨low', high'⟩ := near'.bounds
  have up : (q : ℚ) ≤ r + 1 := by linarith
  have down : (r : ℚ) ≤ q + 1 := by linarith
  have up : q ≤ r + 1 := by exact_mod_cast up
  have down : r ≤ q + 1 := by exact_mod_cast down
  unfold Nearest at near near'
  by_contra differ
  rcases (by omega : q = r + 1 ∨ r = q + 1) with rfl | rfl
  · push_cast at near
    split at near <;> split at near' <;> first | omega | linarith [near.1, near.2, near'.1, near'.2]
  · push_cast at near'
    split at near <;> split at near' <;> first | omega | linarith [near.1, near.2, near'.1, near'.2]

theorem Nearest.of_lt {q : Nat} {w : ℚ} (low : (q : ℚ) - 1 / 2 < w) (high : w < q + 1 / 2) :
    Nearest q w := by
  unfold Nearest
  split
  · exact ⟨low.le, high.le⟩
  · exact ⟨low, high⟩

theorem Nearest.of_even {q : Nat} {w : ℚ} (even : q % 2 = 0) (low : (q : ℚ) - 1 / 2 ≤ w)
    (high : w ≤ q + 1 / 2) : Nearest q w := by
  rw [Nearest, if_pos even]
  exact ⟨low, high⟩

theorem nearest_divNearestEven (num : Nat) {den : Nat} (positive : 0 < den) :
    Nearest (divNearestEven num den) (num / den : ℚ) := by
  have small := Nat.mod_lt num positive
  have positive' : (0 : ℚ) < den := by exact_mod_cast positive
  have whole : (num : ℚ) = den * (num / den : Nat) + (num % den : Nat) := by
    exact_mod_cast (Nat.div_add_mod num den).symm
  have shape : (num / den : ℚ) = (num / den : Nat) + (num % den : Nat) / den := by
    rw [whole]
    field_simp
  unfold divNearestEven
  generalize num / den = q at shape ⊢
  generalize num % den = r at shape small ⊢
  rw [shape]
  dsimp only
  split
  · rename_i below
    have half : (r : ℚ) / den < 1 / 2 := by
      have below : (2 * r : ℚ) < den := by exact_mod_cast below
      rw [div_lt_iff₀ positive']
      linarith
    have nonneg : (0 : ℚ) ≤ r / den := by positivity
    exact .of_lt (by linarith) (by linarith)
  · split
    · rename_i above
      have half : (1 : ℚ) / 2 < r / den := by
        have above : (den : ℚ) < 2 * r := by exact_mod_cast above
        rw [lt_div_iff₀ positive']
        linarith
      have one : (r : ℚ) / den < 1 := by
        rw [div_lt_one positive']
        exact_mod_cast small
      exact .of_lt (by push_cast; linarith) (by push_cast; linarith)
    · have half : (r : ℚ) / den = 1 / 2 := by
        have twice : 2 * r = den := by omega
        have twice : (2 * r : ℚ) = den := by exact_mod_cast twice
        rw [div_eq_iff positive'.ne']
        linarith
      rw [half]
      rcases Nat.mod_two_eq_zero_or_one q with even | odd
      · rw [even]
        exact .of_even even (by push_cast; linarith) (by push_cast; linarith)
      · rw [odd]
        exact .of_even (by omega) (by push_cast; linarith) (by push_cast; linarith)

theorem div_log2 {n : Nat} (positive : 0 < n) :
    (2 : ℚ) ^ (n.log2 : Int) ≤ n ∧ (n : ℚ) < 2 ^ ((n.log2 : Int) + 1) := by
  constructor
  · rw [zpow_natCast]
    exact_mod_cast Nat.log2_self_le positive.ne'
  · have above : n < 2 ^ (n.log2 + 1) := Nat.lt_log2_self
    have same : ((n.log2 : Int) + 1) = ((n.log2 + 1 : Nat) : Int) := by push_cast; rfl
    rw [same, zpow_natCast]
    exact_mod_cast above

theorem zpow_le_div_iff {num den : Nat} (positive : 0 < den) (k : Int) :
    (2 : ℚ) ^ k ≤ (num / den : ℚ) ↔
      if 0 ≤ k then den * Nat.pow 2 k.toNat ≤ num else den ≤ num * Nat.pow 2 (-k).toNat := by
  have positive' : (0 : ℚ) < den := by exact_mod_cast positive
  rw [le_div_iff₀ positive']
  split
  · rename_i nonneg
    obtain ⟨n, rfl⟩ := Int.eq_ofNat_of_zero_le nonneg
    rw [Int.toNat_natCast, zpow_natCast, mul_comm]
    exact_mod_cast Iff.rfl
  · rename_i negative
    obtain ⟨n, rfl⟩ : ∃ n : Nat, k = -n := ⟨(-k).toNat, by omega⟩
    have power : (0 : ℚ) < 2 ^ n := by positivity
    rw [neg_neg, Int.toNat_natCast, zpow_neg, zpow_natCast, inv_mul_le_iff₀ power, mul_comm]
    exact_mod_cast Iff.rfl

theorem leadingBit_spec {num den : Nat} (some : 0 < num) (positive : 0 < den) :
    (2 : ℚ) ^ leadingBit num den ≤ num / den ∧ (num / den : ℚ) < 2 ^ (leadingBit num den + 1) := by
  have positive' : (0 : ℚ) < den := by exact_mod_cast positive
  obtain ⟨numLow, numHigh⟩ := div_log2 some
  obtain ⟨denLow, denHigh⟩ := div_log2 positive
  have two : (2 : ℚ) ≠ 0 := by norm_num
  have high : (num / den : ℚ) < 2 ^ ((num.log2 : Int) - den.log2 + 1) := by
    rw [div_lt_iff₀ positive']
    calc (num : ℚ) < 2 ^ ((num.log2 : Int) + 1) := numHigh
      _ = 2 ^ ((num.log2 : Int) - den.log2 + 1) * 2 ^ (den.log2 : Int) := by
        rw [← zpow_add₀ two]
        congr 1
        ring
      _ ≤ 2 ^ ((num.log2 : Int) - den.log2 + 1) * den := by gcongr
  have low : (2 : ℚ) ^ ((num.log2 : Int) - den.log2 - 1) ≤ num / den := by
    rw [le_div_iff₀ positive']
    calc (2 : ℚ) ^ ((num.log2 : Int) - den.log2 - 1) * den
        ≤ 2 ^ ((num.log2 : Int) - den.log2 - 1) * 2 ^ ((den.log2 : Int) + 1) := by gcongr
      _ = 2 ^ (num.log2 : Int) := by
        rw [← zpow_add₀ two]
        congr 1
        ring
      _ ≤ num := numLow
  have reached := @zpow_le_div_iff num den positive ((num.log2 : Int) - den.log2)
  unfold leadingBit
  dsimp only
  by_cases there : (2 : ℚ) ^ ((num.log2 : Int) - den.log2) ≤ num / den
  · rw [if_pos (reached.mp there)]
    exact ⟨there, high⟩
  · rw [if_neg fun again => there (reached.mpr again), sub_add_cancel]
    exact ⟨low, not_le.mp there⟩

/-- The integer nearest to `num / den / 2 ^ exponent`. -/
def mantissaAt (num den : Nat) (exponent : Int) : Nat :=
  if 0 ≤ exponent then divNearestEven num (den * Nat.pow 2 exponent.toNat)
  else divNearestEven (num * Nat.pow 2 (-exponent).toNat) den

theorem nearest_mantissaAt (num : Nat) {den : Nat} (positive : 0 < den) (e : Int) :
    Nearest (mantissaAt num den e) (num / den / 2 ^ e : ℚ) := by
  unfold mantissaAt
  split
  · rename_i nonneg
    obtain ⟨n, rfl⟩ := Int.eq_ofNat_of_zero_le nonneg
    have near := nearest_divNearestEven num (by positivity : 0 < den * 2 ^ n)
    push_cast at near
    rw [div_div, zpow_natCast]
    exact near
  · rename_i negative
    obtain ⟨n, rfl⟩ : ∃ n : Nat, e = -n := ⟨(-e).toNat, by omega⟩
    have near := nearest_divNearestEven (num * 2 ^ n) positive
    push_cast at near
    rw [neg_neg, Int.toNat_natCast, zpow_neg, zpow_natCast, div_inv_eq_mul, div_mul_eq_mul_div]
    exact near

theorem roundRatio_eq {num den : Nat} (some : 0 < num) :
    roundRatio num den =
      let e := max minExponent (leadingBit num den - 52)
      let m := mantissaAt num den e
      if m = 2 ^ 53 then if maxExponent < e + 1 then .infinite else .finite (2 ^ 52) (e + 1)
      else if maxExponent < e then .infinite else .finite m e := by
  rw [roundRatio, if_neg some.ne']
  change (let p := if mantissaAt num den (max minExponent (leadingBit num den - 52)) = 2 ^ 53
    then (2 ^ 52, max minExponent (leadingBit num den - 52) + 1)
    else (mantissaAt num den (max minExponent (leadingBit num den - 52)),
      max minExponent (leadingBit num den - 52))
    if maxExponent < p.2 then Magnitude.infinite else Magnitude.finite p.1 p.2) = _
  dsimp only
  split <;> rfl

section RoundRatio

variable {num den : Nat} (some : 0 < num) (positive : 0 < den)

include some positive

theorem mantissaAt_le {e : Int} (fits : leadingBit num den - 52 ≤ e) :
    mantissaAt num den e ≤ 2 ^ 53 := by
  have power : (0 : ℚ) < 2 ^ e := by positivity
  have below : (num / den / 2 ^ e : ℚ) < 2 ^ (53 : Int) := by
    rw [div_lt_iff₀ power, ← zpow_add₀ two_ne_zero]
    refine (leadingBit_spec some positive).2.trans_le ?_
    exact zpow_le_zpow_right₀ one_le_two (by omega)
  have near := (nearest_mantissaAt num positive e).bounds.1
  rw [show (53 : Int) = (53 : Nat) from rfl, zpow_natCast] at below
  have bound : (mantissaAt num den e : ℚ) < 2 ^ 53 + 1 := by linarith
  have bound : mantissaAt num den e < 2 ^ 53 + 1 := by exact_mod_cast bound
  omega

theorem le_mantissaAt : 2 ^ 52 ≤ mantissaAt num den (leadingBit num den - 52) := by
  have power : (0 : ℚ) < 2 ^ (leadingBit num den - 52) := by positivity
  have above : (2 : ℚ) ^ (52 : Int) ≤ num / den / 2 ^ (leadingBit num den - 52) := by
    rw [le_div_iff₀ power, ← zpow_add₀ two_ne_zero]
    refine le_trans (le_of_eq ?_) (leadingBit_spec some positive).1
    congr 1
    ring
  have near := (nearest_mantissaAt num positive (leadingBit num den - 52)).bounds.2
  rw [show (52 : Int) = (52 : Nat) from rfl, zpow_natCast] at above
  have bound : (2 : ℚ) ^ 52 < mantissaAt num den (leadingBit num den - 52) + 1 := by linarith
  have bound : 2 ^ 52 < mantissaAt num den (leadingBit num den - 52) + 1 := by exact_mod_cast bound
  omega

theorem canonical_roundRatio_of_pos : (roundRatio num den).Canonical := by
  rw [roundRatio_eq some]
  dsimp only
  have least : minExponent ≤ max minExponent (leadingBit num den - 52) := le_max_left _ _
  have small := mantissaAt_le some positive (le_max_right minExponent (leadingBit num den - 52))
  have large : 2 ^ 52 ≤ mantissaAt num den (max minExponent (leadingBit num den - 52)) ∨
      max minExponent (leadingBit num den - 52) = minExponent := by
    rcases le_total minExponent (leadingBit num den - 52) with normal | subnormal
    · left
      rw [max_eq_right normal]
      exact le_mantissaAt some positive
    · exact .inr (max_eq_left subnormal)
  generalize max minExponent (leadingBit num den - 52) = e at least small large ⊢
  generalize mantissaAt num den e = m at small large ⊢
  split <;> split
  · trivial
  · exact ⟨by norm_num, by omega, by omega, .inl le_rfl⟩
  · trivial
  · exact ⟨by omega, least, by omega, large⟩

end RoundRatio

section Reached

variable {num den : Nat} (some : 0 < num) (positive : 0 < den) {e : Int}

include some positive

theorem leadingBit_lt (below : (num / den / 2 ^ e : ℚ) < 2 ^ 53) : leadingBit num den < e + 53 := by
  have power : (0 : ℚ) < 2 ^ e := by positivity
  rw [div_lt_iff₀ power, ← zpow_natCast, ← zpow_add₀ two_ne_zero] at below
  have bit := (leadingBit_spec some positive).1.trans_lt below
  have bit := (zpow_lt_zpow_iff_right₀ one_lt_two).mp bit
  push_cast at bit
  omega

theorem le_leadingBit (above : (2 : ℚ) ^ 52 ≤ num / den / 2 ^ e) : e + 52 ≤ leadingBit num den := by
  have power : (0 : ℚ) < 2 ^ e := by positivity
  rw [le_div_iff₀ power, ← zpow_natCast, ← zpow_add₀ two_ne_zero] at above
  have bit := above.trans_lt (leadingBit_spec some positive).2
  have bit := (zpow_lt_zpow_iff_right₀ one_lt_two).mp bit
  push_cast at bit
  omega

theorem roundRatio_of_nearest {m : Nat} (canonical : (Magnitude.finite m e).Canonical)
    (near : Nearest m (num / den / 2 ^ e))
    (high : e = minExponent ∨ (2 : ℚ) ^ 52 ≤ num / den / 2 ^ e) :
    roundRatio num den = .finite m e := by
  obtain ⟨small, least, most, _⟩ := canonical
  have bound : (m : ℚ) + 1 ≤ 2 ^ 53 := by exact_mod_cast small
  have upper := leadingBit_lt some positive (e := e) (by linarith [near.bounds.2])
  have exponent : max minExponent (leadingBit num den - 52) = e := by
    rcases high with rfl | above
    · exact max_eq_left (by omega)
    · have lower := le_leadingBit some positive above
      omega
  have mantissa := (nearest_mantissaAt num positive e).unique near
  rw [roundRatio_eq some]
  dsimp only
  rw [exponent, mantissa, if_neg (by omega), if_neg (by omega)]

theorem roundRatio_of_below_power (normal : minExponent < e) (most : e ≤ maxExponent)
    (near : ((2 : ℚ) ^ 53 - 1 / 2) ≤ num / den / 2 ^ (e - 1))
    (below : (num / den / 2 ^ (e - 1) : ℚ) < 2 ^ 53) :
    roundRatio num den = .finite (2 ^ 52) e := by
  have upper := leadingBit_lt some positive below
  have lower := le_leadingBit some positive (e := e - 1) (by linarith)
  have exponent : max minExponent (leadingBit num den - 52) = e - 1 := by omega
  have nearest : Nearest (2 ^ 53) (num / den / 2 ^ (e - 1)) :=
    .of_even (by norm_num) (by push_cast; exact near) (by push_cast; linarith)
  have mantissa := (nearest_mantissaAt num positive (e - 1)).unique nearest
  rw [roundRatio_eq some]
  dsimp only
  rw [exponent, mantissa, if_pos rfl, sub_add_cancel, if_neg (by omega)]

end Reached

theorem canonical_zero : zero.Canonical := ⟨by norm_num, le_rfl, by decide, .inr rfl⟩

theorem canonical_roundRatio (num : Nat) {den : Nat} (positive : 0 < den) :
    (roundRatio num den).Canonical := by
  rcases Nat.eq_zero_or_pos num with rfl | some
  · rw [roundRatio, if_pos rfl]
    exact canonical_zero
  · exact canonical_roundRatio_of_pos some positive

theorem canonical_ofDecimal (digits : Nat) (exponent : Int) :
    (ofDecimal digits exponent).Canonical := by
  have ten : ∀ n, 0 < Nat.pow 10 n := fun n => Nat.pow_pos (by omega)
  unfold ofDecimal
  split
  · exact canonical_zero
  · split
    · trivial
    · split
      · exact canonical_zero
      · split
        · exact canonical_roundRatio _ Nat.one_pos
        · exact canonical_roundRatio _ (ten _)

end Binary64

end SchemaOverlay

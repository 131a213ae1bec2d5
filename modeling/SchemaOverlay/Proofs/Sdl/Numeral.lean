import SchemaOverlay.Proofs.Number.Shortest
import SchemaOverlay.Proofs.Text.Digits
import SchemaOverlay.Sdl.Token.Scan
import Mathlib.Data.List.TakeWhile

/-!
Numbers, written and read. An integer of 64 bits is read as it was written. A float with a fraction
is read as itself; one without is read as an integer, which its text writes, and not at all if it is
too large for 64 bits. Of the infinite ones, the positive is read as a name and the negative not at
all.
-/
namespace SchemaOverlay

open Text Sdl

namespace Sdl

theorem isWhole_cons {c : Char} {rest : List Char} (digits : ∀ d ∈ c :: rest, d.isDigit = true)
    (leading : 1 ≤ digitValue c) : isWhole (c :: rest) = true := by
  rw [List.forall_mem_cons] at digits
  have nonzero : c ≠ '0' := by
    rintro rfl
    exact absurd leading (by decide)
  unfold isWhole
  split
  · cases ‹_ :: _ = []›
  · rfl
  · rename_i same
    obtain ⟨rfl, rfl⟩ := List.cons.inj same
    rw [Bool.and_eq_true, Bool.and_eq_true, decide_eq_true_eq, List.all_eq_true]
    exact ⟨⟨digits.1, nonzero⟩, digits.2⟩

theorem isWhole_toDigits (n : Nat) : isWhole (Nat.toDigits 10 n) = true := by
  rcases Nat.eq_zero_or_pos n with rfl | positive
  · rfl
  · obtain ⟨c, rest, shape, leading⟩ := head_toDigits positive
    rw [shape]
    exact isWhole_cons (fun d member => isDigit_of_mem_toDigits (shape ▸ member)) leading

theorem unsignedNumeral?_whole (negative : Bool) (n : Nat) :
    unsignedNumeral? negative (Nat.toDigits 10 n) = intToken? (if negative then -n else n) := by
  have digits : ∀ c ∈ Nat.toDigits 10 n, c.isDigit = true := fun c => isDigit_of_mem_toDigits
  have whole : (Nat.toDigits 10 n).takeWhile Char.isDigit = Nat.toDigits 10 n := by
    rw [List.takeWhile_eq_self_iff]
    exact digits
  have rest : (Nat.toDigits 10 n).dropWhile Char.isDigit = [] := by
    rw [List.dropWhile_eq_nil_iff]
    exact digits
  rw [unsignedNumeral?, whole, rest]
  dsimp only
  rw [if_pos (isWhole_toDigits n), digitsValue_toDigits]

theorem unsignedNumeral?_point (negative : Bool) {whole places : List Char}
    (leading : isWhole whole = true) (digits : ∀ c ∈ whole ++ places, c.isDigit = true)
    (some : places ≠ []) :
    unsignedNumeral? negative (whole ++ '.' :: places) =
      .some (.float ⟨negative, Binary64.ofDecimal (digitsValue (whole ++ places))
        (-places.length)⟩) := by
  have front : ∀ c ∈ whole, c.isDigit = true := fun c member =>
    digits c (List.mem_append_left places member)
  have back : ∀ c ∈ places, c.isDigit = true := fun c member =>
    digits c (List.mem_append_right whole member)
  have before : (whole ++ '.' :: places).takeWhile Char.isDigit = whole := by
    rw [List.takeWhile_append_of_pos front]
    simp
  have behind : (whole ++ '.' :: places).dropWhile Char.isDigit = '.' :: places := by
    rw [List.dropWhile_append_of_pos front]
    simp
  have fraction : fraction? ('.' :: places) = .some (places, []) := by
    have all : places.takeWhile Char.isDigit = places := List.takeWhile_eq_self_iff.mpr back
    have none : places.dropWhile Char.isDigit = [] := List.dropWhile_eq_nil_iff.mpr back
    rw [fraction?, all, none]
    cases places with
    | nil => exact absurd rfl some
    | cons c places => rfl
  rw [unsignedNumeral?, before, behind]
  dsimp only
  rw [if_pos leading, fraction]
  simp [exponent?]

theorem numeral?_of_digit {c : Char} (digit : c.isDigit = true) (rest : List Char) :
    numeral? (c :: rest) = unsignedNumeral? false (c :: rest) := by
  rw [numeral?]
  intro r same
  obtain ⟨rfl, _⟩ := List.cons.inj same
  exact absurd digit (by decide)

end Sdl

namespace Binary64

/-- The token that the text of a number is read as, if it is read at all. -/
def token? (x : Binary64) : Option Token :=
  match x.magnitude with
  | .infinite => if x.negative then none else some (.name "inf")
  | .finite m e =>
    if m = 0 then some (.int 0)
    else
      let (digits, grid) := shortestDigits m e
      if 0 ≤ grid then
        intToken?
          (if x.negative then -(digits * 10 ^ grid.toNat : Nat) else (digits * 10 ^ grid.toNat : Nat))
      else some (.float x)

theorem toList_positional_whole {digits : Nat} (positive : 0 < digits) {grid : Int}
    (whole : 0 ≤ grid) :
    (positional digits grid).toList = Nat.toDigits 10 (digits * 10 ^ grid.toNat) := by
  rw [positional, if_pos whole, String.toList_ofList, toDigits_mul_pow positive,
    Nat.toString_eq_repr, Nat.toList_repr]

theorem toList_positional_point {digits : Nat} (positive : 0 < digits) {grid : Int}
    (point : grid < 0) :
    ∃ whole places, (positional digits grid).toList = whole ++ '.' :: places ∧
      isWhole whole = true ∧ (∀ c ∈ whole ++ places, c.isDigit = true) ∧
      places.length = (-grid).toNat ∧ digitsValue (whole ++ places) = digits := by
  obtain ⟨c, rest, shape, leading⟩ := head_toDigits positive
  have all : ∀ d ∈ Nat.toDigits 10 digits, d.isDigit = true := fun d => isDigit_of_mem_toDigits
  rw [positional, if_neg (not_le.mpr point), Nat.toString_eq_repr, Nat.toList_repr]
  dsimp only
  split
  · rename_i inside
    generalize (-grid).toNat = k at inside ⊢
    refine ⟨(Nat.toDigits 10 digits).take ((Nat.toDigits 10 digits).length - k),
      (Nat.toDigits 10 digits).drop ((Nat.toDigits 10 digits).length - k), String.toList_ofList,
      ?_, ?_,
      ?_, ?_⟩
    · obtain ⟨j, long⟩ : ∃ j, (Nat.toDigits 10 digits).length - k = j + 1 :=
        ⟨(Nat.toDigits 10 digits).length - k - 1, by omega⟩
      rw [long, shape, List.take_succ_cons]
      refine isWhole_cons (fun d member => all d ?_) leading
      rw [shape]
      exact (List.take_subset (j + 1) (c :: rest)) member
    · rwa [List.take_append_drop]
    · rw [List.length_drop]
      omega
    · rw [List.take_append_drop, digitsValue_toDigits]
  · rename_i outside
    generalize (-grid).toNat = k at outside ⊢
    refine ⟨['0'],
      List.replicate (k - (Nat.toDigits 10 digits).length) '0' ++ Nat.toDigits 10 digits,
      String.toList_ofList, rfl, ?_, ?_, ?_⟩
    · intro d member
      rcases List.mem_append.mp member with zero | member
      · rw [List.mem_singleton.mp zero]
        rfl
      · rcases List.mem_append.mp member with zero | digit
        · rw [List.eq_of_mem_replicate zero]
          rfl
        · exact all d digit
    · rw [List.length_append, List.length_replicate]
      omega
    · have zeros : ['0'] ++ (List.replicate (k - (Nat.toDigits 10 digits).length) '0' ++
          Nat.toDigits 10 digits) = List.replicate (k - (Nat.toDigits 10 digits).length + 1) '0' ++
          Nat.toDigits 10 digits := rfl
      rw [zeros, digitsValue_zeros_append, digitsValue_toDigits]

theorem ofDecimal_shortestDigits {m : Nat} {e : Int} (canonical : (Magnitude.finite m e).Canonical)
    (positive : 0 < m) (point : (shortestDigits m e).2 < 0) :
    ofDecimal (shortestDigits m e).1 (shortestDigits m e).2 = .finite m e := by
  have rounded := roundRatio_shortestDigits canonical positive
  have some := shortestDigits_pos canonical positive
  have near := (onGrid_shortestDigits canonical positive).2
  generalize shortestDigits m e = p at rounded some near point ⊢
  have whole : p.2.toNat = 0 := by omega
  rw [whole, Nat.pow_zero, Nat.mul_one] at rounded
  rw [ofDecimal, if_neg some.ne', if_neg (by omega), if_neg (by omega), if_neg (by omega)]
  exact rounded

theorem text_zero (e : Int) : (Magnitude.finite 0 e).text.toList = ['0'] := by
  rw [Magnitude.text]
  decide

theorem text_finite {m : Nat} (positive : 0 < m) (e : Int) :
    (Magnitude.finite m e).text = positional (shortestDigits m e).1 (shortestDigits m e).2 := by
  obtain ⟨k, rfl⟩ := Nat.exists_eq_add_one_of_ne_zero positive.ne'
  rfl

theorem unsignedNumeral?_text {x : Binary64} (canonical : x.magnitude.Canonical)
    (finite : x.magnitude ≠ .infinite) :
    unsignedNumeral? x.negative x.magnitude.text.toList = x.token? := by
  obtain ⟨negative, magnitude⟩ := x
  cases magnitude with
  | infinite => exact absurd rfl finite
  | finite m e =>
    rcases Nat.eq_zero_or_pos m with rfl | positive
    · have zero : Nat.toDigits 10 0 = ['0'] := rfl
      dsimp only
      rw [text_zero, ← zero, unsignedNumeral?_whole]
      cases negative <;> rfl
    · have some := shortestDigits_pos canonical positive
      rw [text_finite positive, token?]
      dsimp only
      rw [if_neg positive.ne']
      split
      · rename_i whole
        rw [toList_positional_whole some whole, unsignedNumeral?_whole]
      · rename_i point
        rw [not_le] at point
        obtain ⟨whole, places, text, leading, digits, count, value⟩ :=
          toList_positional_point some point
        have grid : -(places.length : Int) = (shortestDigits m e).2 := by omega
        have shown : places ≠ [] := by
          rintro rfl
          rw [List.length_nil] at grid
          omega
        rw [text, unsignedNumeral?_point negative leading digits shown, value, grid,
          ofDecimal_shortestDigits canonical positive point]

theorem text_of_finite {magnitude : Magnitude} (canonical : magnitude.Canonical)
    (finite : magnitude ≠ .infinite) :
    ∃ c rest, magnitude.text.toList = c :: rest ∧ c.isDigit = true ∧
      ∀ d ∈ rest, d.isDigit = true ∨ d = '.' := by
  cases magnitude with
  | infinite => exact absurd rfl finite
  | finite m e =>
    rcases Nat.eq_zero_or_pos m with rfl | positive
    · exact ⟨'0', [], text_zero e, rfl, by simp⟩
    · have some := shortestDigits_pos canonical positive
      rw [text_finite positive]
      rcases lt_or_ge (shortestDigits m e).2 0 with point | whole
      · obtain ⟨whole, places, text, leading, digits, _⟩ := toList_positional_point some point
        cases whole with
        | nil => cases leading
        | cons c whole =>
          refine ⟨c, whole ++ '.' :: places, text, digits c (by simp), fun d member => ?_⟩
          rcases List.mem_append.mp member with front | back
          · exact .inl (digits d (by simp [front]))
          · rcases List.mem_cons.mp back with rfl | back
            · exact .inr rfl
            · exact .inl (digits d (by simp [back]))
      · rw [toList_positional_whole some whole]
        have all :
            ∀ d ∈ Nat.toDigits 10 ((shortestDigits m e).1 * 10 ^ (shortestDigits m e).2.toNat),
            d.isDigit = true := fun d => isDigit_of_mem_toDigits
        generalize shape : Nat.toDigits 10 _ = digits at all ⊢
        cases digits with
        | nil => exact absurd shape Nat.toDigits_ne_nil
        | cons c digits =>
          rw [List.forall_mem_cons] at all
          exact ⟨c, digits, rfl, all.1, fun d member => .inl (all.2 d member)⟩

theorem numeral?_text {x : Binary64} (canonical : x.magnitude.Canonical)
    (known : x ≠ ⟨false, .infinite⟩) : numeral? x.text.toList = x.token? := by
  obtain ⟨negative, magnitude⟩ := x
  cases negative with
  | true =>
    have text : (⟨true, magnitude⟩ : Binary64).text.toList = '-' :: magnitude.text.toList := by
      rw [Binary64.text, if_pos rfl, String.toList_append]
      rfl
    rw [text, numeral?]
    by_cases finite : magnitude = .infinite
    · subst finite
      rfl
    · exact unsignedNumeral?_text (x := ⟨true, magnitude⟩) canonical finite
  | false =>
    have finite : magnitude ≠ .infinite := by
      rintro rfl
      exact known rfl
    have unsigned := unsignedNumeral?_text (x := ⟨false, magnitude⟩) canonical finite
    obtain ⟨c, rest, text, digit, _⟩ := text_of_finite canonical finite
    have same : (⟨false, magnitude⟩ : Binary64).text = magnitude.text := rfl
    dsimp only at unsigned text
    rw [text] at unsigned
    rw [same, text, numeral?_of_digit digit, unsigned]

end Binary64

namespace Sdl

theorem toList_toString_ofNat (n : Nat) : (toString (n : Int)).toList = Nat.toDigits 10 n := by
  change (Nat.repr n).toList = _
  exact Nat.toList_repr

theorem toList_toString_neg {n : Nat} (positive : 0 < n) :
    (toString (-(n : Int))).toList = '-' :: Nat.toDigits 10 n := by
  obtain ⟨k, rfl⟩ := Nat.exists_eq_add_one_of_ne_zero positive.ne'
  change ("-" ++ Nat.repr (k + 1)).toList = _
  rw [String.toList_append, Nat.toList_repr]
  rfl

theorem head_toDigits_isDigit (n : Nat) :
    ∃ c rest, Nat.toDigits 10 n = c :: rest ∧ c.isDigit = true := by
  cases shape : Nat.toDigits 10 n with
  | nil => exact absurd shape Nat.toDigits_ne_nil
  | cons c rest => exact ⟨c, rest, rfl, isDigit_of_mem_toDigits (n := n) (by simp [shape])⟩

theorem numeral?_toString (n : Int) : numeral? (toString n).toList = intToken? n := by
  rcases le_or_gt 0 n with whole | negative
  · obtain ⟨k, rfl⟩ := Int.eq_ofNat_of_zero_le whole
    obtain ⟨c, rest, shape, digit⟩ := head_toDigits_isDigit k
    rw [toList_toString_ofNat, shape, numeral?_of_digit digit, ← shape, unsignedNumeral?_whole]
    rfl
  · obtain ⟨k, rfl⟩ : ∃ k : Nat, n = -k := ⟨(-n).toNat, by omega⟩
    rw [toList_toString_neg (by omega), numeral?, unsignedNumeral?_whole]
    rfl

theorem intToken?_isSome {n : Int} : (intToken? n).isSome = true ↔ -2 ^ 63 ≤ n ∧ n < 2 ^ 63 := by
  have fits : fitsIn64Bits n = true ↔ -2 ^ 63 ≤ n ∧ n < 2 ^ 63 := by
    rw [fitsIn64Bits, Bool.and_eq_true, decide_eq_true_eq, decide_eq_true_eq]
    rfl
  unfold intToken?
  split
  · rename_i inside
    simpa using fits.mp inside
  · rename_i outside
    rw [fits] at outside
    simpa using outside

theorem eq_of_intToken? {n : Int} {t : Token} (read : intToken? n = some t) : t = .int n := by
  unfold intToken? at read
  split at read
  · cases read
    rfl
  · cases read

end Sdl

def Magnitude.IsBelow (limit : Nat) : Magnitude → Prop
  | .infinite => False
  | .finite m e => m * 2 ^ e.toNat < limit * 2 ^ (-e).toNat

instance (limit : Nat) (m : Magnitude) : Decidable (m.IsBelow limit) :=
  match m with
  | .infinite => .isFalse not_false
  | .finite .. => inferInstanceAs (Decidable (_ < _))

namespace Binary64

theorem bounds_of_holds {i : Interval} {num den : Nat} (inside : i.holds num den = true) :
    i.low * den ≤ num * i.den ∧ num * i.den ≤ i.high * den := by
  unfold Interval.holds at inside
  split at inside
  · rwa [Bool.and_eq_true, decide_eq_true_eq, decide_eq_true_eq] at inside
  · rw [Bool.and_eq_true, decide_eq_true_eq, decide_eq_true_eq] at inside
    exact ⟨inside.1.le, inside.2.le⟩

theorem shortestDigits_twoPow63 : shortestDigits (2 ^ 52) 11 = (9223372036854776, 3) := by
  decide +kernel

section Whole

variable {m : Nat} {e : Int} (canonical : (Magnitude.finite m e).Canonical) (positive : 0 < m)
  (whole : 0 ≤ (shortestDigits m e).2)

include canonical positive whole

theorem whole_bounds :
    (4 * m - below m e) * 2 ^ (e - 2).toNat ≤
      (shortestDigits m e).1 * 10 ^ (shortestDigits m e).2.toNat * 2 ^ (-(e - 2)).toNat ∧
    (shortestDigits m e).1 * 10 ^ (shortestDigits m e).2.toNat * 2 ^ (-(e - 2)).toNat ≤
      (4 * m + 2) * 2 ^ (e - 2).toNat := by
  have bounds := bounds_of_holds (holds_of_onGrid (onGrid_shortestDigits canonical positive).1)
  have unit : (-(shortestDigits m e).2).toNat = 0 := by omega
  rw [unit, Nat.pow_zero, Nat.mul_one, Nat.mul_one, interval_eq] at bounds
  exact bounds

theorem whole_lt_of_isBelow (small : (Magnitude.finite m e).IsBelow (2 ^ 63)) :
    (shortestDigits m e).1 * 10 ^ (shortestDigits m e).2.toNat < 2 ^ 63 := by
  have bound := (whole_bounds canonical positive whole).2
  generalize (shortestDigits m e).1 * 10 ^ (shortestDigits m e).2.toNat = digits at bound ⊢
  obtain ⟨mantissa, _, _, leading⟩ := canonical
  rcases le_or_gt 2 e with high | low
  · have within : e ≤ 10 := by
      by_contra beyond
      have large : 2 ^ 52 ≤ m := leading.resolve_right (by rw [minExponent]; omega)
      have none : (-e).toNat = 0 := by omega
      have product := Nat.mul_le_mul large
        (Nat.pow_le_pow_right (n := 2) (by omega) (by omega : 11 ≤ e.toNat))
      rw [Magnitude.IsBelow, none, Nat.pow_zero] at small
      omega
    have none : (-(e - 2)).toNat = 0 := by omega
    have factor := Nat.pow_le_pow_right (n := 2) (by omega) (by omega : (e - 2).toNat ≤ 8)
    have product := Nat.mul_le_mul (by omega : 4 * m + 2 ≤ 4 * (2 ^ 53 - 1) + 2) factor
    rw [none, Nat.pow_zero, Nat.mul_one] at bound
    omega
  · have none : (e - 2).toNat = 0 := by omega
    have factor := Nat.le_mul_of_pos_right digits (Nat.two_pow_pos (-(e - 2)).toNat)
    rw [none, Nat.pow_zero, Nat.mul_one] at bound
    omega

theorem lt_whole_of_not_isBelow (large : ¬ (Magnitude.finite m e).IsBelow (2 ^ 63)) :
    2 ^ 63 < (shortestDigits m e).1 * 10 ^ (shortestDigits m e).2.toNat := by
  have bound := (whole_bounds canonical positive whole).1
  obtain ⟨mantissa, _, _, leading⟩ := canonical
  rw [Magnitude.IsBelow, not_lt] at large
  have high : 11 ≤ e := by
    by_contra low
    have factor := Nat.pow_le_pow_right (n := 2) (by omega) (by omega : e.toNat ≤ 10)
    have product := Nat.mul_lt_mul_of_lt_of_le mantissa factor (by omega)
    have unit := Nat.le_mul_of_pos_right (2 ^ 63) (Nat.two_pow_pos (-e).toNat)
    omega
  have leads : 2 ^ 52 ≤ m := leading.resolve_right (by rw [minExponent]; omega)
  have none : (-(e - 2)).toNat = 0 := by omega
  rw [none, Nat.pow_zero, Nat.mul_one] at bound
  have quarters : below m e ≤ 2 := by
    unfold below
    split <;> omega
  rcases Nat.lt_or_ge (2 ^ 52) m with above | power
  · have factor := Nat.pow_le_pow_right (n := 2) (by omega) (by omega : 9 ≤ (e - 2).toNat)
    have product := Nat.mul_le_mul (by omega : 4 * 2 ^ 52 + 2 ≤ 4 * m - below m e) factor
    omega
  · obtain rfl : m = 2 ^ 52 := by omega
    rcases eq_or_lt_of_le high with rfl | beyond
    · rw [shortestDigits_twoPow63]
      decide
    · have factor := Nat.pow_le_pow_right (n := 2) (by omega) (by omega : 10 ≤ (e - 2).toNat)
      have product := Nat.mul_le_mul
        (by omega : 4 * 2 ^ 52 - 2 ≤ 4 * 2 ^ 52 - below (2 ^ 52) e) factor
      omega

end Whole

/-- A number is read if it is less than 2^63, by its magnitude, or the positive infinity. -/
theorem token?_isSome_iff {x : Binary64} (canonical : x.magnitude.Canonical) :
    x.token?.isSome = true ↔ x = ⟨false, .infinite⟩ ∨ x.magnitude.IsBelow (2 ^ 63) := by
  obtain ⟨negative, magnitude⟩ := x
  cases magnitude with
  | infinite => cases negative <;> simp [token?, Magnitude.IsBelow]
  | finite m e =>
    rcases Nat.eq_zero_or_pos m with rfl | positive
    · have below : (Magnitude.finite 0 e).IsBelow (2 ^ 63) := by
        rw [Magnitude.IsBelow, Nat.zero_mul]
        positivity
      exact iff_of_true rfl (.inr below)
    · have finite : (⟨negative, .finite m e⟩ : Binary64) ≠ ⟨false, .infinite⟩ := by simp
      rw [or_iff_right finite, token?]
      dsimp only at canonical ⊢
      rw [if_neg positive.ne']
      rcases le_or_gt 0 (shortestDigits m e).2 with whole | point
      · rw [if_pos whole, intToken?_isSome]
        by_cases small : (Magnitude.finite m e).IsBelow (2 ^ 63)
        · have less := whole_lt_of_isBelow canonical positive whole small
          refine iff_of_true ?_ small
          split <;> omega
        · have more := lt_whole_of_not_isBelow canonical positive whole small
          refine iff_of_false ?_ small
          split <;> omega
      · rw [if_neg (not_le.mpr point)]
        refine iff_of_true rfl ?_
        have low : e ≤ 1 := by
          by_contra high
          exact absurd (shortestDigits_whole positive (by omega)) (not_le.mpr point)
        have factor := Nat.pow_le_pow_right (n := 2) (by omega) (by omega : e.toNat ≤ 1)
        have product := Nat.mul_lt_mul_of_lt_of_le canonical.1 factor (by omega)
        have unit := Nat.le_mul_of_pos_right (2 ^ 63) (Nat.two_pow_pos (-e).toNat)
        rw [Magnitude.IsBelow]
        omega

def IsNegativeZero (x : Binary64) : Prop := x.negative = true ∧ ∃ e, x.magnitude = .finite 0 e

instance (x : Binary64) : Decidable x.IsNegativeZero :=
  match x with
  | ⟨negative, .finite m e⟩ => decidable_of_iff (negative = true ∧ m = 0) (by simp [IsNegativeZero])
  | ⟨_, .infinite⟩ => .isFalse (by simp [IsNegativeZero])

theorem text_of_token?_int {x : Binary64} (canonical : x.magnitude.Canonical) {n : Int}
    (read : x.token? = some (.int n)) : toString n = x.text ↔ ¬ x.IsNegativeZero := by
  obtain ⟨negative, magnitude⟩ := x
  cases magnitude with
  | infinite => cases negative <;> cases read
  | finite m e =>
    have text : (⟨negative, .finite m e⟩ : Binary64).text.toList =
        if negative then '-' :: (Magnitude.finite m e).text.toList
        else (Magnitude.finite m e).text.toList := by
      cases negative with
      | false => rfl
      | true => exact String.toList_append
    rw [← String.toList_inj, text]
    rcases Nat.eq_zero_or_pos m with rfl | positive
    · have zero : n = 0 := by
        cases read
        rfl
      rw [zero, text_zero]
      cases negative with
      | false => exact iff_of_true (by decide) (by simp [IsNegativeZero])
      | true => exact iff_of_false (by decide) (by simp [IsNegativeZero])
    · refine iff_of_true ?_ (by simp [IsNegativeZero, positive.ne'])
      have some := shortestDigits_pos canonical positive
      unfold token? at read
      dsimp only at read
      rw [if_neg positive.ne'] at read
      split at read
      · rename_i whole
        rw [text_finite positive, toList_positional_whole some whole]
        have product : 0 < (shortestDigits m e).1 * 10 ^ (shortestDigits m e).2.toNat :=
          by positivity
        have value := eq_of_intToken? read
        cases negative with
        | false =>
          obtain rfl := (Token.int.inj value)
          exact toList_toString_ofNat _
        | true =>
          obtain rfl := (Token.int.inj value)
          exact toList_toString_neg product
      · cases read

end Binary64

end SchemaOverlay

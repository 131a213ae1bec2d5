import SchemaOverlay.Number.Shortest
import SchemaOverlay.Proofs.Number.Rounding

/-!
The shortest text of a magnitude is found, and it is rounded back to the magnitude. A grid as fine
as half the distance to the nearer neighbour has a point among the numbers that round to the
magnitude, and the search reaches such a grid before it ends.
-/
namespace SchemaOverlay

namespace Binary64

def below (m : Nat) (e : Int) : Nat := if m = 2 ^ 52 ∧ minExponent < e then 1 else 2

theorem interval_eq (m : Nat) (e : Int) :
    interval m e = {
      low := (4 * m - below m e) * 2 ^ (e - 2).toNat
      mid := 4 * m * 2 ^ (e - 2).toNat
      high := (4 * m + 2) * 2 ^ (e - 2).toNat
      den := 2 ^ (-(e - 2)).toNat
      closed := m % 2 == 0 } := rfl

theorem pow_toNat {b : ℚ} (nonzero : b ≠ 0) (k : Int) :
    b ^ k.toNat = b ^ k * b ^ (-k).toNat := by
  rw [← zpow_natCast, ← zpow_natCast, ← zpow_add₀ nonzero]
  congr 1
  omega

theorem quarter_power (e : Int) : (2 : ℚ) ^ (e - 2) = 2 ^ e / 4 := by
  rw [zpow_sub₀ two_ne_zero]
  norm_num

theorem exists_scale (e : Int) {den : Nat} (positive : 0 < den) : ∃ k : ℚ, 0 < k ∧
    ∀ a num : Nat, ((a * 2 ^ (e - 2).toNat * den : Nat) : ℚ) = a / 4 * k ∧
      ((num * 2 ^ (-(e - 2)).toNat : Nat) : ℚ) = num / den / 2 ^ e * k := by
  have positive' : (0 : ℚ) < den := by exact_mod_cast positive
  refine ⟨2 ^ e * 2 ^ (-(e - 2)).toNat * den, by positivity, fun a num => ?_⟩
  have up : (2 : ℚ) ^ (e - 2).toNat * 4 = 2 ^ e * 2 ^ (-(e - 2)).toNat := by
    rw [pow_toNat two_ne_zero, quarter_power]
    ring
  have power : (0 : ℚ) < 2 ^ e := by positivity
  constructor
  · push_cast
    rw [← up]
    ring
  · push_cast
    field_simp

theorem holds_iff {m : Nat} {e : Int} (some : 0 < m) (num : Nat) {den : Nat} (positive : 0 < den) :
    (interval m e).holds num den = true ↔
      if m % 2 = 0 then (m - below m e / 4 : ℚ) ≤ num / den / 2 ^ e ∧
        num / den / 2 ^ e ≤ (m + 1 / 2 : ℚ)
      else (m - below m e / 4 : ℚ) < num / den / 2 ^ e ∧ num / den / 2 ^ e < (m + 1 / 2 : ℚ) := by
  obtain ⟨k, scale, same⟩ := exists_scale e positive
  have fits : below m e ≤ 4 * m := by
    unfold below
    split <;> omega
  have low : ((4 * m - below m e : Nat) / 4 : ℚ) = m - below m e / 4 := by
    push_cast [fits]
    ring
  have high : ((4 * m + 2 : Nat) / 4 : ℚ) = m + 1 / 2 := by
    push_cast
    ring
  have le : ∀ a : Nat, a * 2 ^ (e - 2).toNat * den ≤ num * 2 ^ (-(e - 2)).toNat ↔
      (a / 4 : ℚ) ≤ num / den / 2 ^ e := by
    intro a
    rw [← mul_le_mul_iff_left₀ scale, ← (same a num).1, ← (same a num).2, Nat.cast_le]
  have ge : ∀ a : Nat, num * 2 ^ (-(e - 2)).toNat ≤ a * 2 ^ (e - 2).toNat * den ↔
      (num / den / 2 ^ e : ℚ) ≤ a / 4 := by
    intro a
    rw [← mul_le_mul_iff_left₀ scale, ← (same a num).1, ← (same a num).2, Nat.cast_le]
  have lt : ∀ a : Nat, a * 2 ^ (e - 2).toNat * den < num * 2 ^ (-(e - 2)).toNat ↔
      (a / 4 : ℚ) < num / den / 2 ^ e := fun a => by rw [← not_le, ge, not_le]
  have gt : ∀ a : Nat, num * 2 ^ (-(e - 2)).toNat < a * 2 ^ (e - 2).toNat * den ↔
      (num / den / 2 ^ e : ℚ) < a / 4 := fun a => by rw [← not_le, le, not_le]
  rw [interval_eq, Interval.holds, ← low, ← high]
  dsimp only
  by_cases even : m % 2 = 0
  · rw [if_pos (beq_iff_eq.mpr even), if_pos even, Bool.and_eq_true, decide_eq_true_eq,
      decide_eq_true_eq, le, ge]
  · rw [if_neg (by simpa using even), if_neg even, Bool.and_eq_true, decide_eq_true_eq,
      decide_eq_true_eq, lt, gt]

/-- What lies among the numbers that round to a magnitude is rounded to it. -/
theorem roundRatio_of_holds {m : Nat} {e : Int} (canonical : (Magnitude.finite m e).Canonical)
    (some : 0 < m) {num den : Nat} (positive : 0 < den)
    (inside : (interval m e).holds num den = true) : roundRatio num den = .finite m e := by
  rw [holds_iff some num positive] at inside
  have positive' : (0 : ℚ) < den := by exact_mod_cast positive
  have power : (0 : ℚ) < 2 ^ e := by positivity
  have quarters : (below m e : ℚ) ≤ 2 := by
    unfold below
    split <;> norm_num
  have bounds : (m - below m e / 4 : ℚ) ≤ num / den / 2 ^ e ∧
      num / den / 2 ^ e ≤ (m + 1 / 2 : ℚ) := by
    split at inside
    · exact inside
    · exact ⟨inside.1.le, inside.2.le⟩
  have one : (1 : ℚ) ≤ m := by exact_mod_cast some
  have some' : 0 < num := by
    rcases Nat.eq_zero_or_pos num with rfl | some'
    · norm_num at bounds
      linarith [bounds.1]
    · exact some'
  have near : Nearest m (num / den / 2 ^ e) := by
    unfold Nearest
    split at inside
    · rw [if_pos ‹_›]
      exact ⟨by linarith, inside.2⟩
    · rw [if_neg ‹_›]
      exact ⟨by linarith, inside.2⟩
  obtain ⟨small, least, most, leading⟩ := canonical
  by_cases high : e = minExponent ∨ (2 : ℚ) ^ 52 ≤ num / den / 2 ^ e
  · exact roundRatio_of_nearest some' positive ⟨small, least, most, leading⟩ near high
  · obtain ⟨normal, lower⟩ := not_or.mp high
    rw [not_le] at lower
    -- Only below a power of two does the interval reach down to the exponent before.
    have power' : m = 2 ^ 52 := by
      by_contra other
      have big : 2 ^ 52 + 1 ≤ m := by
        rcases leading with large | least'
        · omega
        · exact absurd least' normal
      have big : (2 : ℚ) ^ 52 + 1 ≤ m := by exact_mod_cast big
      linarith
    subst power'
    have narrow : below (2 ^ 52) e = 1 := if_pos ⟨rfl, by omega⟩
    rw [narrow] at bounds
    have double : (num / den / 2 ^ (e - 1) : ℚ) = 2 * (num / den / 2 ^ e) := by
      rw [zpow_sub_one₀ two_ne_zero]
      field_simp
    refine roundRatio_of_below_power some' positive (by omega) most ?_ ?_
    · rw [double]
      push_cast at bounds
      linarith [bounds.1]
    · rw [double]
      linarith

theorem holds_of_onGrid {i : Interval} {grid : Int} {digits : Nat}
    (found : i.onGrid grid = some digits) :
    i.holds (digits * 10 ^ grid.toNat) (10 ^ (-grid).toNat) = true := by
  unfold Interval.onGrid at found
  dsimp only at found
  split at found
  · rename_i here
    cases found
    rw [Bool.and_eq_true] at here
    exact here.1
  · split at found
    · cases found
      assumption
    · cases found

theorem coarsest_spec (i : Interval) (grid : Int) (steps : Nat) :
    (i.onGrid (i.coarsest grid steps).2 = some (i.coarsest grid steps).1 ∧
      grid - steps < (i.coarsest grid steps).2 ∧ (i.coarsest grid steps).2 ≤ grid) ∨
    ∀ k < steps, i.onGrid (grid - k) = none := by
  induction steps generalizing grid with
  | zero => exact .inr fun k small => absurd small (Nat.not_lt_zero k)
  | succ steps ih =>
    rw [Interval.coarsest]
    cases found : i.onGrid grid with
    | some digits => exact .inl ⟨found, by simp, le_rfl⟩
    | none =>
      dsimp only
      rcases ih (grid - 1) with ⟨hit, more, less⟩ | missed
      · exact .inl ⟨hit, by push_cast; omega, by omega⟩
      · refine .inr fun k small => ?_
        cases k with
        | zero => simpa using found
        | succ k =>
          have earlier := missed k (by omega)
          rwa [show grid - 1 - (k : Int) =
            grid - ((k + 1 : Nat) : Int) by push_cast; ring] at earlier

theorem le_coarsest {i : Interval} {grid target : Int} {digits : Nat} (steps : Nat)
    (hit : i.onGrid target = some digits) (before : target ≤ grid) (zero : target ≤ 0) :
    target ≤ (i.coarsest grid steps).2 := by
  induction steps generalizing grid with
  | zero => exact zero
  | succ steps ih =>
    rw [Interval.coarsest]
    cases found : i.onGrid grid with
    | some digits => exact before
    | none =>
      refine ih ?_
      have other : target ≠ grid := by
        rintro rfl
        rw [hit] at found
        cases found
      omega

theorem exists_onGrid_of_floor {i : Interval} {grid : Int}
    (here : i.holds (i.mid * 10 ^ (-grid).toNat / (i.den * 10 ^ grid.toNat) * 10 ^ grid.toNat)
      (10 ^ (-grid).toNat) = true) :
    ∃ digits, i.onGrid grid = some digits := by
  unfold Interval.onGrid
  dsimp only
  split
  · exact ⟨_, rfl⟩
  · rename_i further
    rw [Bool.and_eq_true, Bool.or_eq_true, not_and, not_or] at further
    rw [if_pos (by simpa using (further here).2)]
    exact ⟨_, rfl⟩

theorem mid_interval (m : Nat) (e : Int) :
    ((interval m e).mid : ℚ) = m * 2 ^ e * (interval m e).den := by
  rw [interval_eq]
  push_cast
  rw [pow_toNat two_ne_zero, quarter_power]
  ring

theorem floor_bounds {m : Nat} {e grid : Int} {floor : Nat}
    (shape :
      (interval m e).mid * 10 ^ (-grid).toNat / ((interval m e).den * 10 ^ grid.toNat) = floor) :
    (floor * 10 ^ grid : ℚ) ≤ m * 2 ^ e ∧ (m * 2 ^ e : ℚ) < (floor + 1) * 10 ^ grid := by
  have up : (10 : ℚ) ^ grid.toNat = 10 ^ grid * 10 ^ (-grid).toNat := pow_toNat (by norm_num) grid
  have middle := mid_interval m e
  have den : 0 < (interval m e).den := Nat.pow_pos (by omega)
  have den' : (0 : ℚ) < (interval m e).den := by exact_mod_cast den
  have spacing : 0 < (interval m e).den * 10 ^ grid.toNat := by positivity
  have scale : (0 : ℚ) < (interval m e).den * 10 ^ (-grid).toNat := by positivity
  constructor
  · have le := (Nat.le_div_iff_mul_le spacing).mp shape.ge
    have le : (floor * ((interval m e).den * 10 ^ grid.toNat) : ℚ) ≤
        (interval m e).mid * 10 ^ (-grid).toNat := by exact_mod_cast le
    rw [middle, up] at le
    apply le_of_mul_le_mul_right _ scale
    linarith
  · have lt := (Nat.div_lt_iff_lt_mul spacing).mp (shape.trans_lt (Nat.lt_succ_self floor))
    have lt : ((interval m e).mid * 10 ^ (-grid).toNat : ℚ) <
        (floor + 1) * ((interval m e).den * 10 ^ grid.toNat) := by exact_mod_cast lt
    rw [middle, up] at lt
    apply lt_of_mul_lt_mul_right _ scale.le
    linarith

/-- Steps of at most half the distance to the nearer neighbour do not pass over a magnitude. -/
theorem exists_onGrid {m : Nat} {e : Int} (positive : 0 < m) {grid : Int}
    (fine : (10 : ℚ) ^ grid ≤ 2 ^ (e - 2)) :
    ∃ digits, (interval m e).onGrid grid = some digits := by
  have up : (10 : ℚ) ^ grid.toNat = 10 ^ grid * 10 ^ (-grid).toNat := pow_toNat (by norm_num) grid
  have power : (0 : ℚ) < 2 ^ e := by positivity
  have step : (10 : ℚ) ^ grid / 2 ^ e ≤ 1 / 4 := by
    rw [quarter_power] at fine
    rw [div_le_iff₀ power]
    linarith
  obtain ⟨floor, shape⟩ : ∃ floor, (interval m e).mid * 10 ^ (-grid).toNat /
    ((interval m e).den * 10 ^ grid.toNat) = floor := ⟨_, rfl⟩
  obtain ⟨lower, upper⟩ := floor_bounds shape
  have here : (interval m e).holds (floor * 10 ^ grid.toNat) (10 ^ (-grid).toNat) = true := by
    rw [holds_iff positive _ (by positivity)]
    have value : (((floor * 10 ^ grid.toNat : Nat) : ℚ) / (10 ^ (-grid).toNat : Nat) / 2 ^ e : ℚ) =
        floor * 10 ^ grid / 2 ^ e := by
      push_cast
      rw [up]
      field_simp
    have one : (1 : ℚ) ≤ below m e := by
      unfold below
      split <;> norm_num
    have low : (m - below m e / 4 : ℚ) < floor * 10 ^ grid / 2 ^ e := by
      rw [lt_div_iff₀ power]
      rw [div_le_iff₀ power] at step
      nlinarith
    have high : (floor * 10 ^ grid / 2 ^ e : ℚ) < m + 1 / 2 := by
      rw [div_lt_iff₀ power]
      nlinarith
    rw [value]
    split
    · exact ⟨low.le, high.le⟩
    · exact ⟨low, high⟩
  exact exists_onGrid_of_floor (shape ▸ here)

def finestGrid (e : Int) : Int := (e + 53) * 30103 / 100000 - 21

theorem finestGrid_table : ∀ k < 2046,
    10 ^ (finestGrid ((k : Nat) - 1074)).toNat * 2 ^ (2 - ((k : Nat) - 1074 : Int)).toNat ≤
      2 ^ (((k : Nat) - 1074 : Int) - 2).toNat * 10 ^ (-finestGrid ((k : Nat) - 1074)).toNat := by
  decide +kernel

theorem finestGrid_fine {e : Int} (least : minExponent ≤ e) (most : e ≤ maxExponent) :
    (10 : ℚ) ^ finestGrid e ≤ 2 ^ (e - 2) := by
  have row := finestGrid_table (e + 1074).toNat (by simp only [maxExponent] at most; omega)
  have same : (((e + 1074).toNat : Nat) : Int) - 1074 = e := by
    simp only [minExponent] at least
    omega
  rw [same] at row
  generalize finestGrid e = grid at row ⊢
  have row : (10 ^ grid.toNat * 2 ^ (2 - e).toNat : ℚ) ≤
      2 ^ (e - 2).toNat * 10 ^ (-grid).toNat := by
    exact_mod_cast row
  have scale : (0 : ℚ) < 10 ^ (-grid).toNat * 2 ^ (2 - e).toNat := by positivity
  rw [pow_toNat (by norm_num) grid, pow_toNat two_ne_zero (e - 2), neg_sub] at row
  refine le_of_mul_le_mul_right ?_ scale
  linarith

section ShortestDigits

variable {m : Nat} {e : Int} (canonical : (Magnitude.finite m e).Canonical) (positive : 0 < m)

include canonical positive

theorem onGrid_shortestDigits :
    (interval m e).onGrid (shortestDigits m e).2 = some (shortestDigits m e).1 ∧
      -400 < (shortestDigits m e).2 := by
  obtain ⟨small, least, most, _⟩ := canonical
  have bit : m.log2 ≤ 52 := by
    have lt := (Nat.log2_lt positive.ne').mpr small
    omega
  rcases coarsest_spec (interval m e) (((m.log2 : Int) + 1 + e) * 30103 / 100000 + 2) 24 with
    ⟨hit, above, _⟩ | missed
  · refine ⟨hit, lt_of_le_of_lt ?_ above⟩
    simp only [minExponent] at least
    omega
  · have fine := finestGrid_fine least most
    have last := missed 23 (by omega)
    have coarse : (10 : ℚ) ^ (((m.log2 : Int) + 1 + e) * 30103 / 100000 + 2 - (23 : Nat)) ≤
        10 ^ finestGrid e := by
      refine zpow_le_zpow_right₀ (by norm_num) ?_
      unfold finestGrid
      push_cast
      omega
    obtain ⟨digits, hit⟩ := exists_onGrid positive (coarse.trans fine)
    rw [hit] at last
    cases last

theorem roundRatio_shortestDigits :
    roundRatio ((shortestDigits m e).1 * 10 ^ (shortestDigits m e).2.toNat)
      (10 ^ (-(shortestDigits m e).2).toNat) = .finite m e :=
  roundRatio_of_holds canonical positive (by positivity)
    (holds_of_onGrid (onGrid_shortestDigits canonical positive).1)

theorem shortestDigits_pos : 0 < (shortestDigits m e).1 := by
  rcases Nat.eq_zero_or_pos (shortestDigits m e).1 with none | some
  · have rounded := roundRatio_shortestDigits canonical positive
    rw [none, Nat.zero_mul, roundRatio, if_pos rfl] at rounded
    obtain ⟨rfl, _⟩ := Magnitude.finite.inj rounded
    exact absurd positive (Nat.lt_irrefl 0)
  · exact some

omit canonical in
theorem shortestDigits_whole (large : 2 ≤ e) : 0 ≤ (shortestDigits m e).2 := by
  have unit : (10 : ℚ) ^ (0 : Int) ≤ 2 ^ (e - 2) := by
    rw [zpow_zero]
    exact one_le_zpow₀ one_le_two (by omega)
  obtain ⟨digits, hit⟩ := exists_onGrid positive unit
  exact le_coarsest 24 hit (by omega) le_rfl

end ShortestDigits

end Binary64

end SchemaOverlay

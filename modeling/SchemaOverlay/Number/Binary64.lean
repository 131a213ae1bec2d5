/-!
The finite and infinite values of binary64 arithmetic, held exactly, and the rounding of a decimal
number to the nearest of them: a number half way between two of them goes to the one whose
mantissa is even, and one too large for all of them goes to infinity.
-/
namespace SchemaOverlay

/-- The absolute value of a binary64 number; `finite m e` is m · 2^e. -/
inductive Magnitude
  | finite (mantissa : Nat) (exponent : Int)
  | infinite
  deriving DecidableEq, Repr

structure Binary64 where
  negative : Bool
  magnitude : Magnitude
  deriving DecidableEq, Repr

namespace Binary64

def minExponent : Int := -1074

def maxExponent : Int := 971

def zero : Magnitude := .finite 0 minExponent

/-- The quotient nearest to `num / den`; a half goes to the even neighbour. -/
def divNearestEven (num den : Nat) : Nat :=
  let q := num / den
  let twice := 2 * (num % den)
  if twice < den then q
  else if den < twice then q + 1
  else q + q % 2

def leadingBit (num den : Nat) : Int :=
  let guess : Int := (num.log2 : Int) - (den.log2 : Int)
  let reached :=
    if 0 ≤ guess then den * Nat.pow 2 guess.toNat ≤ num
    else den ≤ num * Nat.pow 2 (-guess).toNat
  if reached then guess else guess - 1

def roundRatio (num den : Nat) : Magnitude :=
  if num = 0 then zero
  else
    let exponent := max minExponent (leadingBit num den - 52)
    let mantissa :=
      if 0 ≤ exponent then divNearestEven num (den * Nat.pow 2 exponent.toNat)
      else divNearestEven (num * Nat.pow 2 (-exponent).toNat) den
    let (mantissa, exponent) :=
      if mantissa = Nat.pow 2 53 then (Nat.pow 2 52, exponent + 1) else (mantissa, exponent)
    if maxExponent < exponent then .infinite else .finite mantissa exponent

/-- The magnitude nearest to `digits · 10^exponent`. Exponents so far out that the digits cannot
make up for them are settled without computing the power. -/
def ofDecimal (digits : Nat) (exponent : Int) : Magnitude :=
  if digits = 0 then zero
  else if 400 < exponent then .infinite
  else if (digits.log2 : Int) + 400 < -exponent then zero
  else if 0 ≤ exponent then roundRatio (digits * Nat.pow 10 exponent.toNat) 1
  else roundRatio digits (Nat.pow 10 (-exponent).toNat)

end Binary64

def Magnitude.product : Magnitude → Magnitude → Magnitude
  | .finite m e, .finite n f =>
    let exponent := e + f
    if 0 ≤ exponent then Binary64.roundRatio (m * n * Nat.pow 2 exponent.toNat) 1
    else Binary64.roundRatio (m * n) (Nat.pow 2 (-exponent).toNat)
  | _, _ => .infinite

end SchemaOverlay

import SchemaOverlay.Number.Binary64
import SchemaOverlay.Text.Basic

/-!
Decimal numbers in short: as many of the leading digits as fit in 64 bits, and the power of ten that
they count. Such a number is too large if the product of its digits and its power of ten, each first
rounded to a binary64 value, is rounded to infinity.
-/
namespace SchemaOverlay

structure Scaled where
  negative : Bool
  significand : Nat
  exponent : Int
  deriving DecidableEq, Repr

namespace Scaled

open Text

/-- Appends digits to a number while it fits in 64 bits. The answer is the longest such number, and
the number of digits that are left over. -/
def appendDigits (n : Nat) : List Char → Nat × Nat
  | [] => (n, 0)
  | c :: rest =>
    let longer := n * 10 + digitValue c
    if longer < Nat.pow 2 64 then appendDigits longer rest else (n, rest.length + 1)

/-- The number with the given digits before and after its point. A digit before the point that is
left over still counts for the power of ten; one after it does not. -/
def ofDigits (negative : Bool) (whole places : List Char) (exponent : Int) : Scaled :=
  let (significand, leftOver) := appendDigits 0 whole
  let (significand, dropped) := appendDigits significand places
  { negative, significand
    exponent := exponent + leftOver - (places.length - dropped : Nat) }

def maxPower : Nat := 308

def isTooLarge (x : Scaled) : Bool :=
  if x.significand = 0 ∨ x.exponent < 0 then false
  else if maxPower < x.exponent then true
  else
    let power := Binary64.ofDecimal 1 x.exponent
    (Binary64.ofDecimal x.significand 0).product power == .infinite

end Scaled

end SchemaOverlay

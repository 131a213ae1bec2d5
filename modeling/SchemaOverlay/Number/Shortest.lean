import SchemaOverlay.Number.Binary64

/-!
The shortest decimal text of a binary64 number: the fewest digits that read back as the number
and, of those, the nearest to it. The text is positional whatever the size of the number, without
a point when the number is whole.
-/
namespace SchemaOverlay

namespace Binary64

/-- The numbers that round to a magnitude, as the fractions `low / den` to `high / den` around
`mid / den`; the ends belong to them when `closed` is set. -/
structure Interval where
  low : Nat
  mid : Nat
  high : Nat
  den : Nat
  closed : Bool
  deriving DecidableEq, Repr

/-- Below a power of two the neighbouring magnitude is half as far away as above it. -/
def interval (mantissa : Nat) (exponent : Int) : Interval :=
  let narrow := mantissa = Nat.pow 2 52 ∧ minExponent < exponent
  let below := if narrow then 1 else 2
  let quarter := exponent - 2
  let scale := Nat.pow 2 quarter.toNat
  { low := (4 * mantissa - below) * scale
    mid := 4 * mantissa * scale
    high := (4 * mantissa + 2) * scale
    den := Nat.pow 2 (-quarter).toNat
    closed := mantissa % 2 == 0 }

def Interval.holds (i : Interval) (num den : Nat) : Bool :=
  if i.closed then i.low * den ≤ num * i.den && num * i.den ≤ i.high * den
  else i.low * den < num * i.den && num * i.den < i.high * den

/-- The multiple of 10^`grid` in the interval that is nearest to its middle, in units of the grid;
of two equally near ones the greater. -/
def Interval.onGrid (i : Interval) (grid : Int) : Option Nat :=
  let up := Nat.pow 10 grid.toNat
  let down := Nat.pow 10 (-grid).toNat
  let floor := i.mid * down / (i.den * up)
  let below := i.holds (floor * up) down
  let above := i.holds ((floor + 1) * up) down
  let nearerBelow := 2 * (i.mid * down) < (2 * floor + 1) * (i.den * up)
  if below && (nearerBelow || !above) then some floor
  else if above then some (floor + 1)
  else none

def Interval.coarsest (i : Interval) (grid : Int) : Nat → Nat × Int
  | 0 => (i.mid, 0)
  | steps + 1 =>
    match i.onGrid grid with
    | some digits => (digits, grid)
    | none => i.coarsest (grid - 1) steps

/-- The digits of a magnitude and the power of ten they count. The search begins on a grid that is
wider than the magnitude and ends after at most 17 digits. -/
def shortestDigits (mantissa : Nat) (exponent : Int) : Nat × Int :=
  let bits : Int := (mantissa.log2 : Int) + 1 + exponent
  (interval mantissa exponent).coarsest (bits * 30103 / 100000 + 2) 24

def positional (digits : Nat) (grid : Int) : String :=
  let text := (toString digits).toList
  if 0 ≤ grid then String.ofList (text ++ List.replicate grid.toNat '0')
  else
    let places := (-grid).toNat
    if places < text.length then
      let whole := text.length - places
      String.ofList (text.take whole ++ '.' :: text.drop whole)
    else String.ofList ('0' :: '.' :: List.replicate (places - text.length) '0' ++ text)

end Binary64

def Magnitude.text : Magnitude → String
  | .infinite => "inf"
  | .finite 0 _ => "0"
  | .finite mantissa exponent =>
    let (digits, grid) := Binary64.shortestDigits mantissa exponent
    Binary64.positional digits grid

def Binary64.text (x : Binary64) : String :=
  if x.negative then "-" ++ x.magnitude.text else x.magnitude.text

end SchemaOverlay

import SchemaOverlay.Sdl.Token
import SchemaOverlay.Text.Basic

/-!
Number literals. A literal with neither a fraction nor an exponent is an integer and has to fit in
64 bits; any other is a float.
-/
namespace SchemaOverlay.Sdl

open Text

/-- The digits before the point: a zero, or no leading zero. -/
def isWhole : List Char → Bool
  | [] => false
  | ['0'] => true
  | c :: rest => c.isDigit && c ≠ '0' && rest.all Char.isDigit

def fraction? : List Char → Option (List Char × List Char)
  | '.' :: rest =>
    match rest.takeWhile Char.isDigit with
    | [] => none
    | digits => some (digits, rest.dropWhile Char.isDigit)
  | rest => some ([], rest)

/-- The exponent after the letter. One without a sign begins with a digit from 1 to 8. -/
def exponentValue? : List Char → Option Int
  | '-' :: digits =>
    if !digits.isEmpty && digits.all Char.isDigit then some (-digitsValue digits) else none
  | '+' :: digits =>
    if !digits.isEmpty && digits.all Char.isDigit then some (digitsValue digits) else none
  | c :: digits =>
    if '1' ≤ c && c ≤ '8' && digits.all Char.isDigit then some (digitsValue (c :: digits))
    else none
  | [] => none

def exponent? : List Char → Option Int
  | [] => some 0
  | c :: rest => if c = 'e' ∨ c = 'E' then exponentValue? rest else none

def fitsIn64Bits (n : Int) : Bool := -Int.pow 2 63 ≤ n && n < Int.pow 2 63

def intToken? (n : Int) : Option Token := if fitsIn64Bits n then some (.int n) else none

def unsignedNumeral? (negative : Bool) (cs : List Char) : Option Token :=
  let whole := cs.takeWhile Char.isDigit
  if isWhole whole then
    match cs.dropWhile Char.isDigit with
    | [] => intToken? (if negative then -digitsValue whole else digitsValue whole)
    | rest => do
      let (places, rest) ← fraction? rest
      let exponent ← exponent? rest
      let digits := digitsValue (whole ++ places)
      pure (.float ⟨negative, Binary64.ofDecimal digits (exponent - places.length)⟩)
  else none

def numeral? : List Char → Option Token
  | '-' :: rest => unsignedNumeral? true rest
  | cs => unsignedNumeral? false cs

end SchemaOverlay.Sdl

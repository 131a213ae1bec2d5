import SchemaOverlay.Number.Scaled

/-!
JSON as RFC 8259 has it, read into a tree that keeps what a stricter reader may still refuse: a text
whose surrogate escapes do not pair up is held as no text, and a number may be too large. The members
of an object keep their order and their duplicates.
-/
namespace SchemaOverlay

inductive Json
  | null
  | boolean (value : Bool)
  | number (value : Scaled)
  | text (value : Option String)
  | array (items : List Json)
  | object (members : List (Option String × Json))
  deriving Repr, Inhabited

namespace Json

open Text

inductive Token
  | openBracket | closeBracket | openBrace | closeBrace | comma | colon
  | null | boolean (value : Bool) | number (value : Scaled) | text (value : Option String)
  deriving Repr

def isSpace (c : Char) : Bool := c = ' ' || c = '\t' || c = '\n' || c = '\r'

def mark? : Char → Option Token
  | '[' => some .openBracket
  | ']' => some .closeBracket
  | '{' => some .openBrace
  | '}' => some .closeBrace
  | ',' => some .comma
  | ':' => some .colon
  | _ => none

def word? : List Char → Option Token
  | ['n', 'u', 'l', 'l'] => some .null
  | ['t', 'r', 'u', 'e'] => some (.boolean true)
  | ['f', 'a', 'l', 's', 'e'] => some (.boolean false)
  | _ => none

def digits? (cs : List Char) : Option (List Char × List Char) :=
  match cs.takeWhile Char.isDigit with
  | [] => none
  | digits => some (digits, cs.dropWhile Char.isDigit)

/-- The digits before the point: a zero, or no leading zero. -/
def whole? (cs : List Char) : Option (List Char × List Char) :=
  match cs with
  | '0' :: rest => some (['0'], rest)
  | cs => digits? cs

def fraction? : List Char → Option (List Char × List Char)
  | '.' :: rest => digits? rest
  | rest => some ([], rest)

def exponent? : List Char → Option (Int × List Char)
  | c :: rest =>
    if c = 'e' || c = 'E' then
      match rest with
      | '-' :: rest => (digits? rest).map fun (ds, rest) => (-(digitsValue ds : Int), rest)
      | '+' :: rest => (digits? rest).map fun (ds, rest) => ((digitsValue ds : Int), rest)
      | rest => (digits? rest).map fun (ds, rest) => ((digitsValue ds : Int), rest)
    else some (0, c :: rest)
  | [] => some (0, [])

def number? (cs : List Char) : Option (Scaled × List Char) := do
  let negative := cs.head? = some '-'
  let (whole, rest) ← whole? (if negative then cs.drop 1 else cs)
  let (places, rest) ← fraction? rest
  let (exponent, rest) ← exponent? rest
  return (.ofDigits negative whole places exponent, rest)

def escape? : Char → Option Char
  | '"' => some '"'
  | '\\' => some '\\'
  | '/' => some '/'
  | 'b' => some '\x08'
  | 'f' => some '\x0c'
  | 'n' => some '\n'
  | 'r' => some '\r'
  | 't' => some '\t'
  | _ => none

/-- The code units of a text up to its closing quote, and what follows. A unit above 0xFFFF is a
character that stood for itself. -/
def units? : List Char → Option (List Nat × List Char)
  | [] => none
  | '"' :: rest => some ([], rest)
  | '\\' :: 'u' :: a :: b :: c :: d :: rest => do
    let unit := ((← hexDigit? a) * 16 + (← hexDigit? b)) * 256 +
      ((← hexDigit? c) * 16 + (← hexDigit? d))
    let (units, rest) ← units? rest
    return (unit :: units, rest)
  | '\\' :: c :: rest => do
    let x ← escape? c
    let (units, rest) ← units? rest
    return (x.toNat :: units, rest)
  | c :: rest => do
    if c.toNat < 0x20 || c = '\\' then none
    let (units, rest) ← units? rest
    return (c.toNat :: units, rest)

def isLead (u : Nat) : Bool := 0xD800 ≤ u && u ≤ 0xDBFF

def isTrail (u : Nat) : Bool := 0xDC00 ≤ u && u ≤ 0xDFFF

/-- The characters of code units; a surrogate has to be one of a pair. -/
def chars? : List Nat → Option (List Char)
  | [] => some []
  | [u] => if isLead u || isTrail u then none else some [Char.ofNat u]
  | u :: v :: rest =>
    if isLead u then
      if isTrail v then
        (Char.ofNat (0x10000 + (u - 0xD800) * 1024 + (v - 0xDC00)) :: ·) <$> chars? rest
      else none
    else if isTrail u then none
    else (Char.ofNat u :: ·) <$> chars? (v :: rest)

def readToken? (c : Char) (rest : List Char) : Option (Token × List Char) :=
  match mark? c with
  | some token => some (token, rest)
  | none =>
    if c = '"' then do
      let (units, rest) ← units? rest
      return (.text ((chars? units).map String.ofList), rest)
    else if c = '-' || c.isDigit then do
      let (x, rest) ← number? (c :: rest)
      return (.number x, rest)
    else do
      let token ← word? (c :: rest.takeWhile Char.isAlpha)
      return (token, rest.dropWhile Char.isAlpha)

/-- The tokens of a text, of which there are `fuel` at most. -/
def scan? : Nat → List Char → Option (List Token)
  | fuel, cs =>
    match cs.dropWhile isSpace with
    | [] => some []
    | c :: rest =>
      match fuel with
      | 0 => none
      | fuel + 1 => do
        let (token, rest) ← readToken? c rest
        let tokens ← scan? fuel rest
        return token :: tokens

mutual

/-- Reads a value. Each token and each value within another costs one unit of fuel. -/
def value? : Nat → List Token → Option (Json × List Token)
  | 0, _ => none
  | _, [] => none
  | _ + 1, .null :: rest => some (.null, rest)
  | _ + 1, .boolean b :: rest => some (.boolean b, rest)
  | _ + 1, .number x :: rest => some (.number x, rest)
  | _ + 1, .text s :: rest => some (.text s, rest)
  | _ + 1, .openBracket :: .closeBracket :: rest => some (.array [], rest)
  | fuel + 1, .openBracket :: rest => do
    let (items, rest) ← items? fuel rest
    return (.array items, rest)
  | _ + 1, .openBrace :: .closeBrace :: rest => some (.object [], rest)
  | fuel + 1, .openBrace :: rest => do
    let (members, rest) ← members? fuel rest
    return (.object members, rest)
  | _, _ => none

def items? : Nat → List Token → Option (List Json × List Token)
  | 0, _ => none
  | fuel + 1, tokens => do
    let (item, rest) ← value? fuel tokens
    match rest with
    | .closeBracket :: rest => return ([item], rest)
    | .comma :: rest =>
      let (items, rest) ← items? fuel rest
      return (item :: items, rest)
    | _ => none

def members? : Nat → List Token → Option (List (Option String × Json) × List Token)
  | 0, _ => none
  | fuel + 1, .text key :: .colon :: tokens => do
    let (item, rest) ← value? fuel tokens
    match rest with
    | .closeBrace :: rest => return ([(key, item)], rest)
    | .comma :: rest =>
      let (members, rest) ← members? fuel rest
      return ((key, item) :: members, rest)
    | _ => none
  | _, _ => none

end

def parse? (text : String) : Option Json := do
  let cs := text.toList
  let tokens ← scan? cs.length cs
  match value? (2 * tokens.length + 2) tokens with
  | some (json, []) => some json
  | _ => none

end Json

end SchemaOverlay

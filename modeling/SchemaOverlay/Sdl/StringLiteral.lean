import SchemaOverlay.Sdl.Token
import SchemaOverlay.Text.Basic

/-!
String literals, read and written. A quoted string stands on one line and has escapes; a block
string stands between triple quotes, loses the indent its lines have in common and the blank lines
around them, and escapes nothing but the triple quote itself.

What is written does not always read back: the code of an escape is read in base 16 and written in
base 10, and a block reads without the indent that all of its lines share.
-/
namespace SchemaOverlay.Sdl

open Text

/-- The number written in base 16; a plus sign may stand before the digits. -/
def hexNumber? (cs : List Char) : Option Nat :=
  let digits := match cs with
    | '+' :: rest => rest
    | cs => cs
  if digits.isEmpty then none
  else digits.foldlM (fun n c => (n * 16 + ·) <$> hexDigit? c) 0

def charOfCode? (code : Nat) : Option Char :=
  if h : code.isValidChar then some (Char.ofNatAux code h) else none

def escape? : Char → Option Char
  | '"' => some '"'
  | '\\' => some '\\'
  | '/' => some '/'
  | 'b' => some '\x10'
  | 'f' => some '\x0c'
  | 'n' => some '\n'
  | 'r' => some '\r'
  | 't' => some '\t'
  | _ => none

def following (front : List Char) :
    Except SyntaxError (List Char × List Char) → Except SyntaxError (List Char × List Char)
  | .error e => .error e
  | .ok (s, rest) => .ok (front ++ s, rest)

theorem following_eq_ok {front s rest : List Char} {r : Except SyntaxError (List Char × List Char)}
    (h : following front r = .ok (s, rest)) : ∃ t, r = .ok (t, rest) := by
  cases r with
  | error e => cases h
  | ok p => cases h; exact ⟨p.1, rfl⟩

def readQuoted : List Char → Except SyntaxError (List Char × List Char)
  | [] => .error .unclosedString
  | '"' :: rest => .ok ([], rest)
  | '\n' :: _ => .error .unclosedString
  | '\\' :: 'u' :: a :: b :: c :: d :: rest =>
    match (hexNumber? [a, b, c, d]).bind charOfCode? with
    | some x => following [x] (readQuoted rest)
    | none => .error .badEscape
  | '\\' :: c :: rest =>
    match escape? c with
    | some x => following [x] (readQuoted rest)
    | none => .error .badEscape
  | '\\' :: [] => .error .unclosedString
  | c :: rest => following [c] (readQuoted rest)

def splitBlock : List Char → Except SyntaxError (List Char × List Char)
  | [] => .error .unclosedString
  | '\\' :: '"' :: '"' :: '"' :: rest =>
    following ['\\', '"', '"', '"'] (splitBlock rest)
  | '"' :: '"' :: '"' :: rest => .ok ([], rest)
  | c :: rest => following [c] (splitBlock rest)

def unescapeTriple : List Char → List Char
  | [] => []
  | '\\' :: '"' :: '"' :: '"' :: rest => '"' :: '"' :: '"' :: unescapeTriple rest
  | c :: rest => c :: unescapeTriple rest

def escapeTriple : List Char → List Char
  | [] => []
  | '"' :: '"' :: '"' :: rest => '\\' :: '"' :: '"' :: '"' :: escapeTriple rest
  | c :: rest => c :: escapeTriple rest

def byteCount : List Char → Nat
  | [] => 0
  | c :: cs => c.utf8Size + byteCount cs

def dropBytes : Nat → List Char → List Char
  | 0, cs => cs
  | _, [] => []
  | n + 1, c :: cs => dropBytes (n + 1 - c.utf8Size) cs

def isBlankLine (line : List Char) : Bool := line.all isWhite

/-- The least indent, in bytes, of the lines that are not blank. -/
def commonIndent? (ls : List (List Char)) : Option Nat :=
  ((ls.filter (!isBlankLine ·)).map fun line => byteCount (line.takeWhile isWhite)).min?

/-- The lines without their common indent; the first line sets no indent and keeps its own. -/
def unindent : List (List Char) → List (List Char)
  | [] => []
  | first :: more =>
    match commonIndent? more with
    | none => first :: more
    | some n => first :: more.map fun line => if n ≤ byteCount line then dropBytes n line else line

def trimLines (ls : List (List Char)) : List (List Char) :=
  ((ls.dropWhile isBlankLine).reverse.dropWhile isBlankLine).reverse

def blockValue (content : List Char) : List Char :=
  ['\n'].intercalate ((trimLines (unindent (lines content))).map unescapeTriple)

theorem readQuoted_length {cs s rest : List Char} (h : readQuoted cs = .ok (s, rest)) :
    rest.length < cs.length := by
  fun_induction readQuoted cs generalizing s with
  | case2 r => cases h; simp
  | case4 a b c d r x _ ih =>
    obtain ⟨t, h⟩ := following_eq_ok h
    have := ih h
    simp only [List.length_cons]
    omega
  | case6 c r _ x _ ih =>
    obtain ⟨t, h⟩ := following_eq_ok h
    have := ih h
    simp only [List.length_cons]
    omega
  | case9 c r _ _ _ _ _ ih =>
    obtain ⟨t, h⟩ := following_eq_ok h
    have := ih h
    simp only [List.length_cons]
    omega
  | _ => cases h

theorem splitBlock_length {cs s rest : List Char} (h : splitBlock cs = .ok (s, rest)) :
    rest.length < cs.length := by
  fun_induction splitBlock cs generalizing s with
  | case1 => cases h
  | case2 r ih =>
    obtain ⟨t, h⟩ := following_eq_ok h
    have := ih h
    simp only [List.length_cons]
    omega
  | case3 r =>
    cases h
    simp only [List.length_cons]
    omega
  | case4 c r _ _ ih =>
    obtain ⟨t, h⟩ := following_eq_ok h
    have := ih h
    simp only [List.length_cons]
    omega

def readBlock (cs : List Char) : Except SyntaxError (List Char × List Char) :=
  match splitBlock cs with
  | .error e => .error e
  | .ok (content, rest) => .ok (blockValue content, rest)

theorem readBlock_length {cs s rest : List Char} (h : readBlock cs = .ok (s, rest)) :
    rest.length < cs.length := by
  unfold readBlock at h
  split at h
  · cases h
  · next hs => cases h; exact splitBlock_length hs

/-- The characters a quoted string may hold as they are, quote and backslash apart. -/
def isPlain (c : Char) : Bool := 0x20 ≤ c.toNat && c.toNat ≤ 0xFFFF

def isBreak (c : Char) : Bool := c = '\n' || c = '\r' || c = '\t'

def padLeft (width : Nat) (digits : List Char) : List Char :=
  List.replicate (width - digits.length) '0' ++ digits

def writeEscaped (c : Char) : List Char :=
  match c with
  | '\r' => ['\\', 'r']
  | '\n' => ['\\', 'n']
  | '\t' => ['\\', 't']
  | '"' => ['\\', '"']
  | '\\' => ['\\', '\\']
  | c => if isPlain c then [c] else '\\' :: 'u' :: padLeft 4 (toString c.toNat).toList

def spaces (n : Nat) : List Char := List.replicate n ' '

def writeBlockLine (indent : Nat) (line : List Char) : List Char :=
  if isBlankLine line then ['\n'] else spaces indent ++ escapeTriple line ++ ['\n']

/-- A text of several lines is written as a block, indented two steps further than what it stands
in, unless it holds a character that only an escape can write. -/
def writeString (indent : Nat) (s : List Char) : List Char :=
  if s.contains '\n' && s.all (fun c => isBreak c || isPlain c) then
    ['"', '"', '"', '\n'] ++ (lines s).flatMap (writeBlockLine (indent + 2)) ++
      spaces indent ++ ['"', '"', '"']
  else '"' :: s.flatMap writeEscaped ++ ['"']

end SchemaOverlay.Sdl

import SchemaOverlay.Sdl.StringLiteral
import SchemaOverlay.Sdl.Token.Numeral

/-!
From a text to its tokens. Between tokens stand spaces, tabs, line ends, commas, byte order marks
and comments; a number goes on to the next character that can end one.
-/
namespace SchemaOverlay.Sdl

def isIgnored (c : Char) : Bool :=
  c = ' ' || c = '\t' || c = '\n' || c = '\r' || c = ',' || c = '\uFEFF'

/-- Drops what stands before the next token. A comment ends with its line. -/
def skipIgnored (inComment : Bool) : List Char → List Char
  | [] => []
  | c :: rest =>
    if inComment then skipIgnored (c ≠ '\n' && c ≠ '\r') rest
    else if c = '#' then skipIgnored true rest
    else if isIgnored c then skipIgnored false rest
    else c :: rest

theorem skipIgnored_length (inComment : Bool) (cs : List Char) :
    (skipIgnored inComment cs).length ≤ cs.length := by
  fun_induction skipIgnored inComment cs <;> simp only [List.length_cons, Nat.le_refl] <;> omega

def isNameStart (c : Char) : Bool := c = '_' || c.isAlpha

def isNameChar (c : Char) : Bool := isNameStart c || c.isDigit

def endsNumber (c : Char) : Bool :=
  c = ' ' || c = '\n' || c = '\r' || c = '\t' || c = ',' || c = '#' || (Mark.ofChar? c).isSome

theorem dropWhile_length {α : Type} (p : α → Bool) (l : List α) :
    (l.dropWhile p).length ≤ l.length := by
  induction l with
  | nil => simp
  | cons a l ih =>
    rw [List.dropWhile_cons]
    split
    · exact Nat.le_succ_of_le ih
    · exact Nat.le_refl _

def readString : List Char → Except SyntaxError (List Char × List Char)
  | '"' :: '"' :: rest => readBlock rest
  | cs => readQuoted cs

theorem readString_length {cs s rest : List Char} (h : readString cs = .ok (s, rest)) :
    rest.length < cs.length := by
  unfold readString at h
  split at h
  · have := readBlock_length h
    simp only [List.length_cons]
    omega
  · exact readQuoted_length h

def readToken (c : Char) (rest : List Char) : Except SyntaxError (Token × List Char) :=
  match Mark.ofChar? c with
  | some mark => .ok (.mark mark, rest)
  | none =>
    if isNameStart c then
      .ok (.name (String.ofList (c :: rest.takeWhile isNameChar)), rest.dropWhile isNameChar)
    else if c = '-' || c.isDigit then
      let literal := c :: rest.takeWhile (!endsNumber ·)
      match numeral? literal with
      | some token => .ok (token, rest.dropWhile (!endsNumber ·))
      | none => .error (.badNumber (String.ofList literal))
    else if c = '"' then
      match readString rest with
      | .ok (s, rest) => .ok (.string (String.ofList s), rest)
      | .error e => .error e
    else .error (.strayCharacter c)

theorem readToken_length {c : Char} {cs rest : List Char} {t : Token}
    (h : readToken c cs = .ok (t, rest)) : rest.length ≤ cs.length := by
  unfold readToken at h
  split at h
  · cases h
    exact Nat.le_refl _
  · split at h
    · cases h
      exact dropWhile_length _ _
    · split at h
      · simp only at h
        split at h
        · cases h
          exact dropWhile_length _ _
        · cases h
      · split at h
        · split at h
          · next hs => cases h; exact Nat.le_of_lt (readString_length hs)
          · cases h
        · cases h

def scan (cs : List Char) : Except SyntaxError (List Token) :=
  match _hs : skipIgnored false cs with
  | [] => .ok []
  | c :: rest =>
    match _ht : readToken c rest with
    | .error e => .error e
    | .ok (t, rest') => (t :: ·) <$> scan rest'
termination_by cs.length
decreasing_by
  have h₁ := skipIgnored_length false cs
  have h₂ := readToken_length _ht
  rw [_hs, List.length_cons] at h₁
  omega

end SchemaOverlay.Sdl

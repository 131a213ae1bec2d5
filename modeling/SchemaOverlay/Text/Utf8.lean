/-!
UTF-8, read strictly: no overlong form, no surrogate, nothing above the last code point. A text
that is not UTF-8 is refused at its first ill-formed sequence, whose length is that of the longest
prefix some well-formed sequence could begin with.
-/
namespace SchemaOverlay.Text

inductive Utf8Error
  /-- The bytes from `start` on begin no character, and their first `length` bytes show it. -/
  | invalid (length start : Nat)
  | incomplete (start : Nat)
  deriving DecidableEq, Repr

def Utf8Error.message : Utf8Error → String
  | .invalid length start => s!"invalid utf-8 sequence of {length} bytes from index {start}"
  | .incomplete start => s!"incomplete utf-8 byte sequence from index {start}"

def isTail (b : UInt8) : Bool := 0x80 ≤ b && b ≤ 0xBF

def isSecondOfThree (a b : UInt8) : Bool :=
  if a = 0xE0 then 0xA0 ≤ b && b ≤ 0xBF
  else if a = 0xED then 0x80 ≤ b && b ≤ 0x9F
  else isTail b

def isSecondOfFour (a b : UInt8) : Bool :=
  if a = 0xF0 then 0x90 ≤ b && b ≤ 0xBF
  else if a = 0xF4 then 0x80 ≤ b && b ≤ 0x8F
  else isTail b

def tailBits (b : UInt8) : Nat := b.toNat % 64

/-- Reads the characters of `bytes`, the first of which stands at index `start`. -/
def decodeFrom (start : Nat) : List UInt8 → Except Utf8Error (List Char)
  | [] => .ok []
  | a :: rest =>
    if a < 0x80 then (Char.ofNat a.toNat :: ·) <$> decodeFrom (start + 1) rest
    else if 0xC2 ≤ a && a ≤ 0xDF then
      match rest with
      | [] => .error (.incomplete start)
      | b :: rest =>
        if isTail b then
          (Char.ofNat (a.toNat % 32 * 64 + tailBits b) :: ·) <$> decodeFrom (start + 2) rest
        else .error (.invalid 1 start)
    else if 0xE0 ≤ a && a ≤ 0xEF then
      match rest with
      | [] => .error (.incomplete start)
      | b :: rest =>
        if isSecondOfThree a b then
          match rest with
          | [] => .error (.incomplete start)
          | c :: rest =>
            if isTail c then
              (Char.ofNat ((a.toNat % 16 * 64 + tailBits b) * 64 + tailBits c) :: ·) <$>
                decodeFrom (start + 3) rest
            else .error (.invalid 2 start)
        else .error (.invalid 1 start)
    else if 0xF0 ≤ a && a ≤ 0xF4 then
      match rest with
      | [] => .error (.incomplete start)
      | b :: rest =>
        if isSecondOfFour a b then
          match rest with
          | [] => .error (.incomplete start)
          | c :: rest =>
            if isTail c then
              match rest with
              | [] => .error (.incomplete start)
              | d :: rest =>
                if isTail d then
                  (Char.ofNat
                    (((a.toNat % 8 * 64 + tailBits b) * 64 + tailBits c) * 64 + tailBits d) :: ·)
                    <$> decodeFrom (start + 4) rest
                else .error (.invalid 3 start)
            else .error (.invalid 2 start)
        else .error (.invalid 1 start)
    else .error (.invalid 1 start)

def decodeUtf8 (bytes : List UInt8) : Except Utf8Error String :=
  String.ofList <$> decodeFrom 0 bytes

def encodeChar (c : Char) : List UInt8 :=
  let n := c.toNat
  let tail (k : Nat) : UInt8 := .ofNat (0x80 + k % 64)
  if n < 0x80 then [.ofNat n]
  else if n < 0x800 then [.ofNat (0xC0 + n / 64), tail n]
  else if n < 0x10000 then [.ofNat (0xE0 + n / 4096), tail (n / 64), tail n]
  else [.ofNat (0xF0 + n / 262144), tail (n / 4096), tail (n / 64), tail n]

def encodeUtf8 (s : String) : List UInt8 := s.toList.flatMap encodeChar

end SchemaOverlay.Text

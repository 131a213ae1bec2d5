import SchemaOverlay.Sdl.Syntax

/-!
The tokens of the schema definition language, and the ways a text fails to be a document.
-/
namespace SchemaOverlay.Sdl

inductive Mark
  | openParen | closeParen | openBracket | closeBracket | openBrace | closeBrace
  | bang | dollar | colon | equals | atSign | pipe | ampersand
  deriving DecidableEq, Repr

def Mark.char : Mark → Char
  | .openParen => '('
  | .closeParen => ')'
  | .openBracket => '['
  | .closeBracket => ']'
  | .openBrace => '{'
  | .closeBrace => '}'
  | .bang => '!'
  | .dollar => '$'
  | .colon => ':'
  | .equals => '='
  | .atSign => '@'
  | .pipe => '|'
  | .ampersand => '&'

def Mark.all : List Mark :=
  [.openParen, .closeParen, .openBracket, .closeBracket, .openBrace, .closeBrace, .bang, .dollar,
    .colon, .equals, .atSign, .pipe, .ampersand]

def Mark.ofChar? (c : Char) : Option Mark := Mark.all.find? (·.char = c)

theorem Mark.ofChar?_char (m : Mark) : ofChar? m.char = some m := by
  cases m <;> decide

inductive Token
  | mark (mark : Mark)
  | name (name : Name)
  | int (value : Int)
  | float (value : Binary64)
  | string (value : String)
  deriving DecidableEq, Repr

def Token.text : Token → String
  | .mark m => m.char.toString
  | .name n => n
  | .int _ => "an integer"
  | .float _ => "a float"
  | .string _ => "a string"

inductive SyntaxError
  | strayCharacter (c : Char)
  | badNumber (text : String)
  | badEscape
  | unclosedString
  | unexpected (token : Token)
  | endOfText
  | tooDeep
  deriving DecidableEq, Repr

def SyntaxError.message : SyntaxError → String
  | .strayCharacter c => s!"no token begins with `{c}`"
  | .badNumber text => s!"`{text}` is not a number"
  | .badEscape => "a string holds an escape that means nothing"
  | .unclosedString => "a string is not closed"
  | .unexpected token => s!"unexpected {token.text}"
  | .endOfText => "the text ends too early"
  | .tooDeep => "too many brackets are open"

end SchemaOverlay.Sdl

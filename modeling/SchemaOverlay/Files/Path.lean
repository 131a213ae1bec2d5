/-!
Paths as text: the pieces between slashes, the components they stand for, the path of a name in a
directory, and the path of the directory around a path. None of this looks at any file.
-/
namespace SchemaOverlay

structure Path where
  text : String
  deriving DecidableEq, Repr

inductive Component
  | root
  | here
  | up
  | name (name : String)
  deriving DecidableEq, Repr

namespace Path

def splitSlash : List Char → List (List Char)
  | [] => [[]]
  | c :: rest =>
    if c = '/' then [] :: splitSlash rest
    else
      match splitSlash rest with
      | [] => [[c]]
      | piece :: more => (c :: piece) :: more

def joinSlash (pieces : List (List Char)) : List Char := ['/'].intercalate pieces

def isIdle (piece : List Char) : Bool := piece.isEmpty || piece = ['.']

def isAbsolute (p : Path) : Bool := p.text.toList.head? = some '/'

/-- Whether a relative path begins with a dot that counts. -/
def startsHere (cs : List Char) : Bool :=
  match cs with
  | ['.'] => true
  | '.' :: '/' :: _ => true
  | _ => false

/-- The root or the dot that a path begins with, and the rest. -/
def splitStart (p : Path) : List Char × List Char :=
  let cs := p.text.toList
  if p.isAbsolute || startsHere cs then (cs.take 1, cs.drop 1) else ([], cs)

def componentOf (piece : List Char) : Component :=
  if piece = ['.', '.'] then .up else .name (String.ofList piece)

/-- The components of a path; repeated slashes and dots further on do not count. -/
def components (p : Path) : List Component :=
  let (start, rest) := p.splitStart
  let first : List Component := match start with
    | ['/'] => [.root]
    | ['.'] => [.here]
    | _ => []
  first ++ ((splitSlash rest).filter (!isIdle ·)).map componentOf

def same (p q : Path) : Bool := p.components = q.components

def join (p q : Path) : Path :=
  if q.isAbsolute || p.text.isEmpty then q
  else if p.text.toList.getLast? = some '/' then ⟨p.text ++ q.text⟩
  else ⟨p.text ++ "/" ++ q.text⟩

def dropIdle (reversed : List (List Char)) : List (List Char) := reversed.dropWhile isIdle

/-- The path without its last component. The root and the empty path have none. -/
def parent? (p : Path) : Option Path :=
  let (start, rest) := p.splitStart
  match dropIdle (splitSlash rest).reverse with
  | _ :: more => some ⟨String.ofList (start ++ joinSlash (dropIdle more).reverse)⟩
  | [] => if start = ['.'] then some ⟨""⟩ else none

end Path

end SchemaOverlay

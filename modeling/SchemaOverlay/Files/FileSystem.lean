import SchemaOverlay.Files.Fault
import SchemaOverlay.Files.Path
import SchemaOverlay.Files.Tree

/-!
A file system: a tree of files and directories, and the directory that relative paths are seen from. A
path leads to a place one piece after another, and each piece needs a directory to start from. Names
and paths have a greatest length, in bytes, and no path holds a zero byte.
-/
namespace SchemaOverlay

structure FileSystem where
  root : Node
  workingDirectory : Place
  deriving Repr

structure Spot where
  place : Place
  node : Option Node
  deriving Repr

namespace FileSystem

def nameLimit : Nat := 255

def pathLimit : Nat := 4095

def node? (fs : FileSystem) (place : Place) : Option Node := fs.root.at? place

def put (fs : FileSystem) (place : Place) (node : Node) : FileSystem :=
  { fs with root := Node.put node fs.root place }

/-- Follows the pieces of a path from the place whose names are given backwards, where `here`
stands. Something may or may not stand where they lead. -/
def follow (fs : FileSystem) :
    List String → Option Node → List (List Char) → Except FileFault Spot
  | back, here, [] => .ok ⟨back.reverse, here⟩
  | back, here, piece :: more =>
    match here with
    | none => .error .notFound
    | some (.file _) => .error .notADirectory
    | some (.directory entries) =>
      if Path.isIdle piece then fs.follow back here more
      else if piece = ['.', '.'] then fs.follow back.tail (fs.node? back.tail.reverse) more
      else
        let name := String.ofList piece
        if nameLimit < name.utf8ByteSize then .error .nameTooLong
        else fs.follow (name :: back) (entries.get? name) more

def start (fs : FileSystem) (p : Path) : Place × List (List Char) :=
  match p.text.toList with
  | '/' :: rest => ([], Path.splitSlash rest)
  | cs => (fs.workingDirectory, Path.splitSlash cs)

def followFrom (fs : FileSystem) (place : Place) (pieces : List (List Char)) :
    Except FileFault Spot :=
  fs.follow place.reverse (fs.node? place) pieces

def check (p : Path) : Except FileFault Unit :=
  if p.text.toList.contains '\x00' then .error .zeroByte
  else if p.text.isEmpty then .error .notFound
  else if pathLimit < p.text.utf8ByteSize then .error .nameTooLong
  else .ok ()

def spotOf (fs : FileSystem) (p : Path) : Except FileFault Spot := do
  check p
  let (place, pieces) := fs.start p
  fs.followFrom place pieces

def find (fs : FileSystem) (p : Path) : Except FileFault Node := do
  match (← fs.spotOf p).node with
  | some node => .ok node
  | none => .error .notFound

def isFile (fs : FileSystem) (p : Path) : Bool :=
  match fs.find p with
  | .ok (.file _) => true
  | _ => false

def isDirectory (fs : FileSystem) (p : Path) : Bool :=
  match fs.find p with
  | .ok (.directory _) => true
  | _ => false

def read (fs : FileSystem) (p : Path) : Except FileFault (List UInt8) := do
  match ← fs.find p with
  | .file content => .ok content
  | .directory _ => .error .isADirectory

def withoutSlashes (pieces : List (List Char)) : List (List Char) :=
  (pieces.reverse.dropWhile List.isEmpty).reverse

def endsWithSlash (p : Path) : Bool := p.text.toList.getLast? = some '/'

/-- The spot of a file that is to be written. A path with a slash at its end can only name a
directory, whatever stands there, so of its pieces only those before the last one count. -/
def fileSpot (fs : FileSystem) (p : Path) : Except FileFault Spot := do
  check p
  let (place, pieces) := fs.start p
  if endsWithSlash p then
    discard (fs.followFrom place ((withoutSlashes pieces).dropLast ++ [[]]))
    throw .isADirectory
  fs.followFrom place pieces

def write (fs : FileSystem) (p : Path) (content : List UInt8) : Except FileFault FileSystem := do
  let spot ← fs.fileSpot p
  match spot.node with
  | some (.directory _) => .error .isADirectory
  | _ => .ok (fs.put spot.place (.file content))

def makeDirectory (fs : FileSystem) (p : Path) : Except FileFault FileSystem := do
  check p
  let (place, pieces) := fs.start p
  let spot ← fs.followFrom place (withoutSlashes pieces)
  match spot.node with
  | some _ => .error .alreadyExists
  | none => .ok (fs.put spot.place (.directory .empty))

/-- A path and the directories around it, from the inside out. -/
def withParents (p : Path) : Nat → List Path
  | 0 => []
  | n + 1 =>
    match p.parent? with
    | some parent => p :: withParents parent n
    | none => []

/-- Creates the first of the given directories, and before it those of the others that it needs. A
directory that is there already is fine; one made before a failure stays. -/
def makeAll (fs : FileSystem) : List Path → FileSystem × Except FileFault Unit
  | [] => (fs, .ok ())
  | p :: outer =>
    match fs.makeDirectory p with
    | .ok made => (made, .ok ())
    | .error .notFound =>
      match fs.makeAll outer with
      | (around, .error f) => (around, .error f)
      | (around, .ok ()) =>
        match around.makeDirectory p with
        | .ok made => (made, .ok ())
        | .error f => (around, if around.isDirectory p then .ok () else .error f)
    | .error f => (fs, if fs.isDirectory p then .ok () else .error f)

def makeDirectories (fs : FileSystem) (p : Path) : FileSystem × Except FileFault Unit :=
  fs.makeAll (withParents p (p.text.length + 1))

end FileSystem

end SchemaOverlay

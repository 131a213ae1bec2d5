import SchemaOverlay.Files.FileSystem
import SchemaOverlay.Log

/-!
What the program asks of the machine it runs on: files, directories, and a place to tell of its work.
A `World` is such a machine as a value, so that whole runs can be reasoned about.
-/
namespace SchemaOverlay

class Host (m : Type → Type) where
  isFile : Path → m Bool
  isDirectory : Path → m Bool
  read : Path → m (Except FileError (List UInt8))
  write : Path → List UInt8 → m (Except FileError Unit)
  makeDirectories : Path → m (Except FileError Unit)
  tell : LogRecord → m Unit

structure World where
  files : FileSystem
  log : List LogRecord
  deriving Repr

namespace World

def write (p : Path) (content : List UInt8) : StateM World (Except FileError Unit) := do
  let world ← get
  match world.files.write p content with
  | .ok files =>
    set { world with files }
    return .ok ()
  | .error f => return .error f.system

def makeDirectories (p : Path) : StateM World (Except FileError Unit) := do
  let world ← get
  let (files, result) := world.files.makeDirectories p
  set { world with files }
  return result.mapError FileFault.system

instance : Host (StateM World) where
  isFile p := return (← get).files.isFile p
  isDirectory p := return (← get).files.isDirectory p
  read p := return ((← get).files.read p).mapError FileFault.system
  write := World.write
  makeDirectories := World.makeDirectories
  tell r := modify fun world => { world with log := world.log ++ [r] }

end World

end SchemaOverlay

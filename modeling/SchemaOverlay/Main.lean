import SchemaOverlay.Command.Help
import SchemaOverlay.Command.Program

/-!
The program on the machine it runs on.
-/
namespace SchemaOverlay

def faultOf : IO.Error → FileError
  | .noFileOrDirectory .. => FileFault.notFound.system
  | .permissionDenied .. => FileFault.permissionDenied.system
  | .alreadyExists .. => FileFault.alreadyExists.system
  | .inappropriateType _ code _ =>
    if code = 20 then FileFault.notADirectory.system else FileFault.isADirectory.system
  | e@(.invalidArgument _ code _) =>
    if code = 36 then FileFault.nameTooLong.system else ⟨.other, e.toString⟩
  | e => ⟨.other, e.toString⟩

def attempt {α : Type} (text : String) (act : IO α) : IO (Except FileError α) := do
  if text.toList.contains '\x00' then return .error FileFault.zeroByte.system
  try return .ok (← act)
  catch e => return .error (faultOf e)

def leadsSomewhere (text : String) : IO Bool := do
  if text.isEmpty then return false
  return (← attempt text (IO.FS.realPath text)).isOk

/-- Only a directory can be followed by a dot. -/
def isDirectoryOnDisk (p : Path) : IO Bool := do
  if p.text.isEmpty then return false
  leadsSomewhere (p.text ++ "/.")

instance : Host IO where
  isFile p := do return (← leadsSomewhere p.text) && !(← isDirectoryOnDisk p)
  isDirectory := isDirectoryOnDisk
  read p := do return (← attempt p.text (IO.FS.readBinFile p.text)).map fun bytes => bytes.toList
  write p content := attempt p.text (IO.FS.writeBinFile p.text (ByteArray.mk content.toArray))
  makeDirectories p := attempt p.text (IO.FS.createDirAll p.text)
  tell r := IO.eprintln r.text

def showUsage (u : Usage) : IO Unit :=
  if u.exitCode = 0 then IO.println u.message else IO.eprintln u.message

def showOutcome (o : Outcome) : IO Unit := do
  if let some text := o.stdout then IO.println text
  if let some text := o.stderr then IO.eprintln text

def showAnswer : Answer → IO Unit
  | .usage u => showUsage u
  | .help => IO.println helpText
  | .outcome o => showOutcome o

end SchemaOverlay

def main (words : List String) : IO UInt32 := do
  let answer : SchemaOverlay.Answer ← SchemaOverlay.runProgram words (← IO.getEnv "LOG_LEVEL")
  SchemaOverlay.showAnswer answer
  return answer.exitCode.toUInt32

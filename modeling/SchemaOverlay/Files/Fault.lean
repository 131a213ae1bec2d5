/-!
The ways in which work with files fails, and their wording. What the operating system refuses is told
with the system's number.
-/
namespace SchemaOverlay

inductive FileFault
  | notFound | permissionDenied | alreadyExists | notADirectory | isADirectory | nameTooLong
  | zeroByte
  | notText
  | other
  deriving DecidableEq, Repr

structure FileError where
  fault : FileFault
  text : String
  deriving DecidableEq, Repr

namespace FileFault

def name : FileFault → String
  | .notFound => "entity not found"
  | .permissionDenied => "permission denied"
  | .alreadyExists => "entity already exists"
  | .notADirectory => "not a directory"
  | .isADirectory => "is a directory"
  | .nameTooLong => "invalid filename"
  | .zeroByte => "file name contained an unexpected NUL byte"
  | .notText => "stream did not contain valid UTF-8"
  | .other => "other error"

def systemText : FileFault → String
  | .notFound => "No such file or directory (os error 2)"
  | .permissionDenied => "Permission denied (os error 13)"
  | .alreadyExists => "File exists (os error 17)"
  | .notADirectory => "Not a directory (os error 20)"
  | .isADirectory => "Is a directory (os error 21)"
  | .nameTooLong => "File name too long (os error 36)"
  | f => f.name

def named (f : FileFault) : FileError := ⟨f, f.name⟩

def system (f : FileFault) : FileError := ⟨f, f.systemText⟩

end FileFault

end SchemaOverlay

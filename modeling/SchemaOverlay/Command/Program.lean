import SchemaOverlay.Command.Run
import SchemaOverlay.Text.Basic

/-!
The program as a whole: its words, the log level in force, and what it answers.
-/
namespace SchemaOverlay

namespace LogLevel

def usual : LogLevel := .info

def ofSetting? : String → Option LogLevel
  | "DEBUG" | "debug" => some .debug
  | "INFO" | "info" => some .info
  | "TRACE" | "trace" => some .trace
  | "VERBOSE" | "verbose" => some .debug
  | _ => none

def initial (verbose : Bool) (setting : Option String) : LogLevel × List LogRecord :=
  let told (level : LogLevel) : LogRecord :=
    ⟨.trace, s!"Initial logging level set to `{level.word}`."⟩
  if verbose then (.debug, [told .debug])
  else
    match setting with
    | none => (usual, [told usual])
    | some setting =>
      let setting := Text.trim setting
      match ofSetting? setting with
      | some level => (level, [told level])
      | none => (usual, [told usual,
          ⟨.warn, s!"Invalid `LOG_LEVEL` environment variable value: `{setting}`"⟩])

end LogLevel

inductive Answer
  | usage (usage : Usage)
  | help
  | outcome (outcome : Outcome)
  deriving DecidableEq, Repr

def Answer.exitCode : Answer → Nat
  | .usage u => u.exitCode
  | .help => 0
  | .outcome o => o.exitCode

variable {m : Type → Type} [Monad m] [Host m]

/-- A host that is told only what the level in force admits, in a form that is fit for a terminal. -/
instance : Host (ReaderT LogLevel m) where
  isFile p := fun _ => Host.isFile p
  isDirectory p := fun _ => Host.isDirectory p
  read p := fun _ => Host.read p
  write p content := fun _ => Host.write p content
  makeDirectories p := fun _ => Host.makeDirectories p
  tell r := fun inForce => if r.isTold inForce then Host.tell r.forTerminal else pure ()

def Invocation.run (i : Invocation) : m Answer := do
  match i.command with
  | none => return .help
  | some command => return .outcome (← command.run)

def runWords (words : List String) : m Answer := do
  match Arguments.read words with
  | .error u => return .usage u
  | .ok i => i.run

def Invocation.start (i : Invocation) (told : List LogRecord) : m Answer := do
  told.forM Host.tell
  i.run

def runProgram (words : List String) (setting : Option String) : m Answer := do
  match Arguments.read words with
  | .error u => return .usage u
  | .ok i =>
    let (level, told) := LogLevel.initial i.verbose setting
    (i.start told : ReaderT LogLevel m Answer).run level

end SchemaOverlay

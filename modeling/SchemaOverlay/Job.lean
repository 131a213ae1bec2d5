import SchemaOverlay.Overlay.Build
import SchemaOverlay.Text.Basic

/-!
A job: a schema, its overrides, and the path the merged schema is written to. Nothing is created
before the merge has succeeded.
-/
namespace SchemaOverlay

open Sdl

structure Job where
  output : Path
  overrides : Input
  schema : Input
  deriving Repr

inductive JobError
  | build (output : Path) (error : BuildError)
  | makeDirectories (directory : Path) (error : FileError)
  | write (output : Path) (error : FileError)
  deriving DecidableEq, Repr

def JobError.chain : JobError → List String
  | .build output e => s!"Failed to build the schema for `{output.text}`" :: e.chain
  | .makeDirectories directory e =>
    [s!"Failed to create the output directory `{directory.text}`", e.text]
  | .write output e => [s!"Failed to write `{output.text}`", e.text]

def joinChain (chain : List String) : String := joinWith ": " chain

namespace Job

variable {m : Type → Type} [Monad m] [Host m]

/-- The directory that a job has to create for its output, if there is one. -/
def missingDirectory (output : Path) : m (Option Path) := do
  match output.parent? with
  | none => return none
  | some parent =>
    if parent.text.isEmpty then return none
    if ← Host.isDirectory parent then return none
    return some parent

def prepareDirectory (output : Path) : m (Except JobError Unit) := do
  match ← missingDirectory output with
  | none => return .ok ()
  | some parent =>
    Host.tell ⟨.trace, s!"Creating output directory {Text.quoted parent.text}."⟩
    return (← Host.makeDirectories parent).mapError (.makeDirectories parent)

def save (job : Job) (doc : Document) : m (Except JobError Unit) := do
  match ← prepareDirectory job.output with
  | .error e => return .error e
  | .ok () =>
    return (← Host.write job.output (Text.encodeUtf8 doc.print)).mapError (.write job.output)

def heading (job : Job) : LogRecord :=
  ⟨.debug, s!"Applying overrides for {Text.quoted job.output.text}."⟩

/-- Builds the merged schema and writes it. The answer is the path it was written to. -/
def run (job : Job) : m (Except JobError Path) := do
  Host.tell job.heading
  match ← build job.schema job.overrides with
  | .error e => return .error (.build job.output e)
  | .ok doc =>
    match ← job.save doc with
    | .error e => return .error e
    | .ok () => return .ok job.output

end Job

end SchemaOverlay

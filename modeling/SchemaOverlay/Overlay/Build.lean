import SchemaOverlay.Input
import SchemaOverlay.Overlay.Merge

/-!
A merge of two inputs: the schema is read first, then the overrides, and then the one is applied to
the other.
-/
namespace SchemaOverlay

open Sdl

inductive BuildError
  | input (error : InputError)
  | overlay (error : OverlayError)
  deriving DecidableEq, Repr

def BuildError.message : BuildError → String
  | .input e => e.message
  | .overlay e => e.message

def BuildError.chain : BuildError → List String
  | .input e => e.chain
  | .overlay e => [e.message]

variable {m : Type → Type} [Monad m] [Host m]

def mergeTelling (schema overrides : Document) : m (Except BuildError Document) := do
  let merge := merge schema overrides
  merge.log.forM Host.tell
  return merge.outcome.mapError .overlay

def build (schema overrides : Input) : m (Except BuildError Document) := do
  match ← schema.resolve "schema" with
  | .error e => return .error (.input e)
  | .ok schema =>
    match ← overrides.resolve "overrides" with
    | .error e => return .error (.input e)
    | .ok overrides => mergeTelling schema overrides

end SchemaOverlay

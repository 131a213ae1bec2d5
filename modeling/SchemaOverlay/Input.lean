import SchemaOverlay.Host
import SchemaOverlay.Sdl.Parser
import SchemaOverlay.Text.Utf8

/-!
A schema document as it is handed in: as a document, as the path of a file, or as text.
-/
namespace SchemaOverlay

open Sdl

inductive Input
  | document (document : Document)
  | path (path : Path)
  | sdl (text : String)
  deriving Repr

inductive InputError
  | decode (path : Path) (bytes : List UInt8) (error : Text.Utf8Error)
  | read (path : Path) (error : FileError)
  | blank (label : String)
  | parse (source detail : String)
  | notAFile (path : Path)
  deriving DecidableEq, Repr

namespace InputError

def message : InputError → String
  | .decode p _ e => s!"Failed to decode `{p.text}` as UTF-8: {e.message}"
  | .read p e => s!"Failed to read `{p.text}`: {e.text}"
  | .blank label => s!"The {label} input is neither SDL text, a file path, nor a parsed document"
  | .parse source detail => s!"Error parsing {source}: {detail}"
  | .notAFile p => s!"`{p.text}` is not a file"

def chain (e : InputError) : List String :=
  match e with
  | .decode _ _ cause => [e.message, cause.message]
  | .read _ cause => [e.message, cause.text]
  | _ => [e.message]

/-- Whether two errors tell of the same fault. Paths count by their components, and what the system
says of a file by its kind. -/
def same : InputError → InputError → Bool
  | .decode p bytes e, .decode q bytes' e' => p.same q && bytes = bytes' && e = e'
  | .read p e, .read q e' => p.same q && e.fault = e'.fault
  | .blank label, .blank label' => label = label'
  | .parse source detail, .parse source' detail' => source = source' && detail = detail'
  | .notAFile p, .notAFile q => p.same q
  | _, _ => false

end InputError

namespace Input

variable {m : Type → Type} [Monad m] [Host m]

/-- A text that names an existing file is its path, and any other text is a document's. -/
def infer (text : String) : m Input := do
  let trimmed := Text.trim text
  if trimmed.isEmpty || trimmed.toList.contains '\n' then return .sdl text
  if ← Host.isFile ⟨trimmed⟩ then return .path ⟨trimmed⟩
  return .sdl text

def parse (source text : String) : Except InputError Document :=
  (Document.parse text).mapError fun e => .parse source e.message

def readText (p : Path) : m (Except InputError String) := do
  unless ← Host.isFile p do return .error (.notAFile p)
  match ← Host.read p with
  | .error e => return .error (.read p e)
  | .ok bytes => return (Text.decodeUtf8 bytes).mapError fun e => .decode p bytes e

def resolve (label : String) : Input → m (Except InputError Document)
  | .document doc => return .ok doc
  | .path p => do
    match ← readText p with
    | .error e => return .error e
    | .ok text => return parse p.text text
  | .sdl text =>
    return if Text.isBlank text then .error (.blank label) else parse label text

end Input

end SchemaOverlay

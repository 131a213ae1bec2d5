import SchemaOverlay.Sdl.Kind

/-!
The reasons for which an edit is refused. A refused edit changes nothing.
-/
namespace SchemaOverlay

open Sdl

inductive EditError
  | alreadyExists (name : Name) (registry : Registry)
  | collectionNotSupported (collection : Collection) (definition : Name) (kind : Kind)
  | duplicateEntry (collection : Collection) (definition entry : Name)
  | entryNotFound (collection : Collection) (definition entry : Name)
  | kindMismatch (name : Name) (existing incoming : Kind)
  | mismatchedEntry (collection : Collection) (definition : Name) (kind : Kind) (word : String)
  | notFound (name : Name) (registry : Registry)
  | unsupportedKind
  | wrongRegistry (name : Name) (kind : Kind) (registry : Registry)
  deriving DecidableEq, Repr

def EditError.message : EditError → String
  | .alreadyExists name r =>
    s!"Cannot create `{name}` in {r.word}: a definition with the same name already exists"
  | .collectionNotSupported c definition k =>
    s!"Cannot edit {c.word} on `{definition}`: {k.word} definitions have no {c.word}"
  | .duplicateEntry c definition entry =>
    s!"Cannot create `{entry}` in {c.word} on `{definition}`: an entry with the same name " ++
      "already exists"
  | .entryNotFound c definition entry =>
    s!"No entry named `{entry}` exists in {c.word} on `{definition}`"
  | .kindMismatch name existing incoming =>
    s!"Cannot merge `{name}`: the existing definition is a {existing.word} but the incoming " ++
      s!"definition is a {incoming.word}"
  | .mismatchedEntry c definition k word =>
    s!"A {word} cannot be stored in {c.word} on `{definition}` ({k.word})"
  | .notFound name r => s!"No definition named `{name}` exists in {r.word}"
  | .unsupportedKind => "`unnamed` node of kind `SchemaDefinition` is not supported by the editor"
  | .wrongRegistry name k r =>
    s!"`{name}` is a {k.word}, which belongs in {k.registry.word} rather than {r.word}"

end SchemaOverlay

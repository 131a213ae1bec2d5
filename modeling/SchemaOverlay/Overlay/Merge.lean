import SchemaOverlay.Overlay.Apply

/-!
A schema with its overrides applied. The result is what a reader of its printed text sees.
-/
namespace SchemaOverlay

open Sdl

structure Merge where
  outcome : Except OverlayError Document
  log : List LogRecord

def noActions : LogRecord := ⟨.debug, "The overrides document carries no action directives."⟩

/-- An edited catalog as a document. If the text of the catalog is no document, an extension that has
nothing left is to blame before anything else. -/
def Catalog.finish (cat : Catalog) : Except OverlayError Document :=
  match cat.normalize with
  | .ok doc => .ok doc
  | .error e =>
    match cat.emptyExtensions with
    | draft :: _ => .error (.emptyExtension draft.kind draft.name)
    | [] => .error (.notNormal e)

def Plan.merge (p : Plan) (schema : Document) : Merge :=
  let told := p.classified :: if p.isEmpty then [noActions] else []
  match Catalog.ofDocument schema with
  | .error e => ⟨.error (.edit e), told⟩
  | .ok cat =>
    let (result, progress) := p.applyTo cat
    let log := told ++ progress.tried.map Step.record
    match result with
    | .error e => ⟨.error e, log⟩
    | .ok _ => ⟨progress.catalog.finish, log⟩

def merge (schema overrides : Document) : Merge :=
  match Plan.ofDocument overrides with
  | .error e => ⟨.error e, []⟩
  | .ok plan => plan.merge schema

end SchemaOverlay

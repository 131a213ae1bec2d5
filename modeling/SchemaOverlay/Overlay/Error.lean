import SchemaOverlay.Edit.Error
import SchemaOverlay.Overlay.Action
import SchemaOverlay.Sdl.Token

/-!
The reasons for which an overrides document cannot be applied to a schema.
-/
namespace SchemaOverlay

open Sdl

inductive OverlayError
  | ambiguous (typeName : Name)
  | edit (error : EditError)
  | emptyExtension (kind : Kind) (name : Name)
  | invalidTarget (action : Action) (target : String)
  | notNormal (error : SyntaxError)
  | unsupportedOnMember (action : Action) (typeName entry : Name)
  deriving DecidableEq, Repr

def OverlayError.message : OverlayError → String
  | .ambiguous typeName =>
    s!"`{typeName}` carries a type-level action directive and field-level action directives in " ++
      "the same block; move the field-level actions into a separate block"
  | .edit e => e.message
  | .emptyExtension k name =>
    s!"{k.word} `{name}` has nothing left to extend after applying the overrides; remove the " ++
      "extension instead of excluding all of its members"
  | .invalidTarget a target =>
    s!"{a.text} cannot be placed on {target}: action directives belong on a type definition, a " ++
      "type extension, or a field, input value, or enum value directly inside one"
  | .notNormal e => s!"The merged schema failed to re-parse: {e.message}"
  | .unsupportedOnMember a typeName entry =>
    s!"{a.text} on `{typeName}.{entry}` is not supported: fields, input values, and enum values " ++
      "accept only @create, @replace, @upsert, @delete, and @remove"

end SchemaOverlay

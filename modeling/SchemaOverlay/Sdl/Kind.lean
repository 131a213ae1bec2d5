import SchemaOverlay.Sdl.Syntax

/-!
The kinds of definitions that can be edited: a directive definition, and for each of the six forms
of types a type definition and a type extension. A schema definition is of no kind.

A kind settles where a definition is filed and which collections of named entries it has.
-/
namespace SchemaOverlay.Sdl

inductive TypeForm
  | scalar | object | interface | union | enum | inputObject
  deriving DecidableEq, Repr

inductive Kind
  | directive
  | type (form : TypeForm)
  | extension (form : TypeForm)
  deriving DecidableEq, Repr

/-- The three name spaces of a document, each with definitions of its own. -/
inductive Registry
  | directives | definitions | extensions
  deriving DecidableEq, Repr

inductive Collection
  | arguments | directives | fields | interfaces
  | types
  | values
  deriving DecidableEq, Repr

def Registry.all : List Registry := [.directives, .definitions, .extensions]

def Registry.word : Registry → String
  | .directives => "directives"
  | .definitions => "definitions"
  | .extensions => "extensions"

def Collection.all : List Collection :=
  [.arguments, .directives, .fields, .interfaces, .types, .values]

def Collection.word : Collection → String
  | .arguments => "arguments"
  | .directives => "directives"
  | .fields => "fields"
  | .interfaces => "interfaces"
  | .types => "types"
  | .values => "values"

def TypeForm.word : TypeForm → String
  | .scalar => "Scalar"
  | .object => "Object"
  | .interface => "Interface"
  | .union => "Union"
  | .enum => "Enum"
  | .inputObject => "InputObject"

def TypeForm.collections : TypeForm → List Collection
  | .scalar => [.directives]
  | .object => [.interfaces, .directives, .fields]
  | .interface => [.directives, .fields]
  | .union => [.directives, .types]
  | .enum => [.directives, .values]
  | .inputObject => [.directives, .fields]

namespace Kind

def word : Kind → String
  | .directive => "DirectiveDefinition"
  | .type form => form.word ++ "TypeDefinition"
  | .extension form => form.word ++ "TypeExtension"

def registry : Kind → Registry
  | .directive => .directives
  | .type _ => .definitions
  | .extension _ => .extensions

def collections : Kind → List Collection
  | .directive => [.arguments]
  | .type form | .extension form => form.collections

def supports (k : Kind) (c : Collection) : Bool := k.collections.contains c

def hasInputFields : Kind → Bool
  | .type .inputObject | .extension .inputObject => true
  | _ => false

theorem collections_nodup (k : Kind) : k.collections.Nodup := by
  cases k with
  | directive => decide
  | type form => cases form <;> decide
  | extension form => cases form <;> decide

end Kind

def TypeBody.form : TypeBody → TypeForm
  | .scalar => .scalar
  | .object .. => .object
  | .interface .. => .interface
  | .union _ => .union
  | .enum _ => .enum
  | .inputObject _ => .inputObject

namespace Definition

def kind? : Definition → Option Kind
  | .schema _ => none
  | .type _ node => some (.type node.body.form)
  | .extension node => some (.extension node.body.form)
  | .directive _ => some .directive

def name? : Definition → Option Name
  | .schema _ => none
  | .type _ node | .extension node => some node.name
  | .directive d => some d.name

def description? : Definition → Option String
  | .type description _ => description
  | .directive d => d.description
  | .schema _ | .extension _ => none

def describe (text : String) : Definition → Definition
  | .type _ node => .type (some text) node
  | .directive d => .directive { d with description := some text }
  | d => d

def directives : Definition → List Directive
  | .schema s => s.directives
  | .type _ node | .extension node => node.directives
  | .directive _ => []

end Definition

end SchemaOverlay.Sdl

import SchemaOverlay.Sdl.Kind

/-!
The named entries of a definition: what each collection of it holds, and a definition with other
entries in their place. What is in no collection (the locations of a directive, whether it is
repeatable, the interfaces that an interface implements) is left as it is.
-/
namespace SchemaOverlay.Sdl

inductive Entry
  | directive (use : Directive)
  | field (field : Field)
  | inputValue (value : InputValue)
  | enumValue (value : EnumValue)
  /-- An implemented interface or a member of a union. -/
  | namedType (name : Name)
  deriving Repr

namespace Entry

def name : Entry → Name
  | .directive d => d.name
  | .field f => f.name
  | .inputValue v => v.name
  | .enumValue v => v.name
  | .namedType n => n

def word : Entry → String
  | .directive _ => "Directive"
  | .field _ => "FieldDefinition"
  | .inputValue _ => "InputValueDefinition"
  | .enumValue _ => "EnumValueDefinition"
  | .namedType _ => "NamedType"

def directive? : Entry → Option Directive
  | .directive d => some d
  | _ => none

def field? : Entry → Option Field
  | .field f => some f
  | _ => none

def inputValue? : Entry → Option InputValue
  | .inputValue v => some v
  | _ => none

def enumValue? : Entry → Option EnumValue
  | .enumValue v => some v
  | _ => none

def namedType? : Entry → Option Name
  | .namedType n => some n
  | _ => none

end Entry

def Kind.admits (k : Kind) : Collection → Entry → Bool
  | .arguments, .inputValue _ => true
  | .directives, .directive _ => true
  | .fields, .field _ => !k.hasInputFields
  | .fields, .inputValue _ => k.hasInputFields
  | .interfaces, .namedType _ => true
  | .types, .namedType _ => true
  | .values, .enumValue _ => true
  | _, _ => false

def TypeBody.entries : TypeBody → Collection → List Entry
  | .object interfaces _, .interfaces => interfaces.map .namedType
  | .object _ fields, .fields => fields.map .field
  | .interface _ fields, .fields => fields.map .field
  | .union members, .types => members.map .namedType
  | .enum values, .values => values.map .enumValue
  | .inputObject fields, .fields => fields.map .inputValue
  | _, _ => []

/-- Entries of a shape that the collection does not hold are dropped. -/
def TypeBody.withEntries (b : TypeBody) (c : Collection) (es : List Entry) : TypeBody :=
  match b, c with
  | .object _ fields, .interfaces => .object (es.filterMap Entry.namedType?) fields
  | .object interfaces _, .fields => .object interfaces (es.filterMap Entry.field?)
  | .interface implements _, .fields => .interface implements (es.filterMap Entry.field?)
  | .union _, .types => .union (es.filterMap Entry.namedType?)
  | .enum _, .values => .enum (es.filterMap Entry.enumValue?)
  | .inputObject _, .fields => .inputObject (es.filterMap Entry.inputValue?)
  | b, _ => b

def TypeNode.entries (node : TypeNode) : Collection → List Entry
  | .directives => node.directives.map .directive
  | c => node.body.entries c

def TypeNode.withEntries (node : TypeNode) (c : Collection) (es : List Entry) : TypeNode :=
  match c with
  | .directives => { node with directives := es.filterMap Entry.directive? }
  | c => { node with body := node.body.withEntries c es }

namespace Definition

def entries : Definition → Collection → List Entry
  | .type _ node, c | .extension node, c => node.entries c
  | .directive d, .arguments => d.arguments.map .inputValue
  | _, _ => []

def withEntries (d : Definition) (c : Collection) (es : List Entry) : Definition :=
  match d, c with
  | .type description node, c => .type description (node.withEntries c es)
  | .extension node, c => .extension (node.withEntries c es)
  | .directive d, .arguments => .directive { d with arguments := es.filterMap Entry.inputValue? }
  | d, _ => d

end Definition

end SchemaOverlay.Sdl

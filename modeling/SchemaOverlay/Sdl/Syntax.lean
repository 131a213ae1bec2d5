import SchemaOverlay.Number.Binary64

/-!
The schema definition language: documents, their definitions and what those are made of. A type
definition and a type extension hold the same node; only the definition may have a description.
-/
namespace SchemaOverlay.Sdl

abbrev Name := String

inductive Value
  | var (name : Name)
  | int (value : Int)
  | float (value : Binary64)
  | string (value : String)
  | boolean (value : Bool)
  | null
  | enum (name : Name)
  | list (items : List Value)
  /-- The fields are sorted by name and no name repeats. -/
  | object (fields : List (Name × Value))
  deriving Repr, Inhabited

namespace Value

mutual

def same : Value → Value → Bool
  | .var n, .var m | .enum n, .enum m => n = m
  | .int i, .int j => i = j
  | .float x, .float y => x = y
  | .string s, .string t => s = t
  | .boolean a, .boolean b => a = b
  | .null, .null => true
  | .list items, .list items' => sameItems items items'
  | .object fields, .object fields' => sameFields fields fields'
  | _, _ => false

def sameItems : List Value → List Value → Bool
  | [], [] => true
  | v :: rest, v' :: rest' => same v v' && sameItems rest rest'
  | _, _ => false

def sameFields : List (Name × Value) → List (Name × Value) → Bool
  | [], [] => true
  | (n, v) :: rest, (n', v') :: rest' => n = n' && same v v' && sameFields rest rest'
  | _, _ => false

end

mutual

theorem same_iff : (v w : Value) → (same v w = true ↔ v = w)
  | .var _, w | .int _, w | .float _, w | .string _, w | .boolean _, w | .null, w | .enum _, w => by
    cases w <;> simp [same]
  | .list items, w => by cases w <;> simp [same, sameItems_iff items]
  | .object fields, w => by cases w <;> simp [same, sameFields_iff fields]

theorem sameItems_iff : (items others : List Value) → (sameItems items others = true ↔ items = others)
  | [], others => by cases others <;> simp [sameItems]
  | v :: rest, others => by cases others <;> simp [sameItems, same_iff v, sameItems_iff rest]

theorem sameFields_iff : (fields others : List (Name × Value)) →
    (sameFields fields others = true ↔ fields = others)
  | [], others => by cases others <;> simp [sameFields]
  | (n, v) :: rest, others => by
    rcases others with _ | ⟨⟨m, w⟩, others⟩
    · simp [sameFields]
    · simp [sameFields, same_iff v w, sameFields_iff rest, and_assoc]

end

instance : DecidableEq Value := fun v w => decidable_of_iff _ (same_iff v w)

end Value

inductive TypeRef
  | named (name : Name)
  | list (item : TypeRef)
  | nonNull (inner : TypeRef)
  deriving DecidableEq, Repr

structure Directive where
  name : Name
  arguments : List (Name × Value)
  deriving DecidableEq, Repr, Inhabited

structure InputValue where
  description : Option String
  name : Name
  valueType : TypeRef
  default : Option Value
  directives : List Directive
  deriving DecidableEq, Repr

structure Field where
  description : Option String
  name : Name
  arguments : List InputValue
  fieldType : TypeRef
  directives : List Directive
  deriving DecidableEq, Repr

structure EnumValue where
  description : Option String
  name : Name
  directives : List Directive
  deriving DecidableEq, Repr

inductive TypeBody
  | scalar
  | object (interfaces : List Name) (fields : List Field)
  | interface (implements : List Name) (fields : List Field)
  | union (members : List Name)
  | enum (values : List EnumValue)
  | inputObject (fields : List InputValue)
  deriving DecidableEq, Repr

structure TypeNode where
  name : Name
  directives : List Directive
  body : TypeBody
  deriving DecidableEq, Repr

inductive Location
  | query | mutation | subscription | field | fragmentDefinition | fragmentSpread | inlineFragment
  | schema | scalar | object | fieldDefinition | argumentDefinition | interface | union | enum
  | enumValue | inputObject | inputFieldDefinition | variableDefinition
  deriving DecidableEq, Repr

structure DirectiveDefinition where
  description : Option String
  name : Name
  arguments : List InputValue
  repeatable : Bool
  locations : List Location
  deriving DecidableEq, Repr

structure SchemaDefinition where
  directives : List Directive
  query : Option Name
  mutation : Option Name
  subscription : Option Name
  deriving DecidableEq, Repr

inductive Definition
  | schema (definition : SchemaDefinition)
  | type (description : Option String) (node : TypeNode)
  | extension (node : TypeNode)
  | directive (definition : DirectiveDefinition)
  deriving DecidableEq, Repr

structure Document where
  definitions : List Definition
  deriving DecidableEq, Repr

def Location.all : List Location :=
  [.query, .mutation, .subscription, .field, .fragmentDefinition, .fragmentSpread,
    .inlineFragment, .schema, .scalar, .object, .fieldDefinition, .argumentDefinition, .interface,
    .union, .enum, .enumValue, .inputObject, .inputFieldDefinition, .variableDefinition]

def Location.word : Location → Name
  | .query => "QUERY"
  | .mutation => "MUTATION"
  | .subscription => "SUBSCRIPTION"
  | .field => "FIELD"
  | .fragmentDefinition => "FRAGMENT_DEFINITION"
  | .fragmentSpread => "FRAGMENT_SPREAD"
  | .inlineFragment => "INLINE_FRAGMENT"
  | .schema => "SCHEMA"
  | .scalar => "SCALAR"
  | .object => "OBJECT"
  | .fieldDefinition => "FIELD_DEFINITION"
  | .argumentDefinition => "ARGUMENT_DEFINITION"
  | .interface => "INTERFACE"
  | .union => "UNION"
  | .enum => "ENUM"
  | .enumValue => "ENUM_VALUE"
  | .inputObject => "INPUT_OBJECT"
  | .inputFieldDefinition => "INPUT_FIELD_DEFINITION"
  | .variableDefinition => "VARIABLE_DEFINITION"

def Location.ofWord? (word : Name) : Option Location :=
  Location.all.find? (·.word = word)

theorem Location.ofWord?_word (l : Location) : ofWord? l.word = some l := by
  cases l <;> decide

end SchemaOverlay.Sdl

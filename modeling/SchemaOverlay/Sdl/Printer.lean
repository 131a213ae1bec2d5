import SchemaOverlay.Number.Shortest
import SchemaOverlay.Sdl.StringLiteral

/-!
The text of a document. Members stand one a line, two steps in; a text of several lines follows the
indent of the block it stands in, also inside a value.
-/
namespace SchemaOverlay.Sdl

def quote (indent : Nat) (s : String) : String := String.ofList (writeString indent s.toList)

def joinWith (separator : String) : List String → String
  | [] => ""
  | [s] => s
  | s :: t :: more => s ++ separator ++ joinWith separator (t :: more)

def indentation (indent : Nat) : String := String.ofList (spaces indent)

mutual

def Value.print (indent : Nat) : Value → String
  | .var n => "$" ++ n
  | .int n => toString n
  | .float x => x.text
  | .string s => quote indent s
  | .boolean b => if b then "true" else "false"
  | .null => "null"
  | .enum n => n
  | .list items => "[" ++ joinWith ", " (printItems indent items) ++ "]"
  | .object fields => "\x7b" ++ joinWith ", " (printFields indent fields) ++ "\x7d"

def printItems (indent : Nat) : List Value → List String
  | [] => []
  | v :: rest => v.print indent :: printItems indent rest

def printFields (indent : Nat) : List (Name × Value) → List String
  | [] => []
  | (n, v) :: rest => (n ++ ": " ++ v.print indent) :: printFields indent rest

end

def TypeRef.print : TypeRef → String
  | .named n => n
  | .list item => "[" ++ item.print ++ "]"
  | .nonNull inner => inner.print ++ "!"

def Directive.print (indent : Nat) (d : Directive) : String :=
  let arguments :=
    if d.arguments.isEmpty then ""
    else "(" ++ joinWith ", " (printFields indent d.arguments) ++ ")"
  "@" ++ d.name ++ arguments

def printDirectives (indent : Nat) (ds : List Directive) : String :=
  String.join (ds.map fun d => " " ++ d.print indent)

def printInlineDescription (indent : Nat) : Option String → String
  | none => ""
  | some s => quote indent s ++ " "

def printDescription (indent : Nat) : Option String → String
  | none => ""
  | some s => indentation indent ++ quote indent s ++ "\n"

def InputValue.print (indent : Nat) (v : InputValue) : String :=
  let default := match v.default with
    | none => ""
    | some d => " = " ++ d.print indent
  printInlineDescription indent v.description ++ v.name ++ ": " ++ v.valueType.print ++ default ++
    printDirectives indent v.directives

def printArguments (indent : Nat) (vs : List InputValue) : String :=
  if vs.isEmpty then "" else "(" ++ joinWith ", " (vs.map (·.print indent)) ++ ")"

def Field.print (indent : Nat) (f : Field) : String :=
  printDescription indent f.description ++ indentation indent ++ f.name ++
    printArguments indent f.arguments ++ ": " ++ f.fieldType.print ++
    printDirectives indent f.directives ++ "\n"

def InputValue.printLine (indent : Nat) (v : InputValue) : String :=
  indentation indent ++ v.print indent ++ "\n"

def EnumValue.print (indent : Nat) (v : EnumValue) : String :=
  indentation indent ++ printInlineDescription indent v.description ++ v.name ++
    printDirectives indent v.directives ++ "\n"

def printBlock (members : List String) : String :=
  if members.isEmpty then "" else " \x7b\n" ++ String.join members ++ "\x7d"

def printImplements (interfaces : List Name) : String :=
  if interfaces.isEmpty then "" else " implements " ++ joinWith " & " interfaces

def TypeNode.keyword (node : TypeNode) : String :=
  match node.body with
  | .scalar => "scalar"
  | .object .. => "type"
  | .interface .. => "interface"
  | .union _ => "union"
  | .enum _ => "enum"
  | .inputObject _ => "input"

def TypeNode.print (node : TypeNode) : String :=
  let directives := printDirectives 0 node.directives
  let rest := match node.body with
    | .scalar => directives
    | .object interfaces fields | .interface interfaces fields =>
      printImplements interfaces ++ directives ++ printBlock (fields.map (·.print 2))
    | .union members =>
      directives ++ if members.isEmpty then "" else " = " ++ joinWith " | " members
    | .enum values => directives ++ printBlock (values.map (·.print 2))
    | .inputObject fields => directives ++ printBlock (fields.map (·.printLine 2))
  node.keyword ++ " " ++ node.name ++ rest ++ "\n"

def DirectiveDefinition.print (d : DirectiveDefinition) : String :=
  let repeatable := if d.repeatable then " repeatable" else ""
  let locations :=
    if d.locations.isEmpty then "" else " on " ++ joinWith " | " (d.locations.map (·.word))
  printDescription 0 d.description ++ "directive @" ++ d.name ++ printArguments 0 d.arguments ++
    repeatable ++ locations ++ "\n"

def printRoot (operation : String) : Option Name → String
  | none => ""
  | some n => "  " ++ operation ++ ": " ++ n ++ "\n"

def SchemaDefinition.print (s : SchemaDefinition) : String :=
  "schema" ++ printDirectives 0 s.directives ++ " \x7b\n" ++ printRoot "query" s.query ++
    printRoot "mutation" s.mutation ++ printRoot "subscription" s.subscription ++ "\x7d\n"

def Definition.print : Definition → String
  | .schema s => s.print
  | .type description node => printDescription 0 description ++ node.print
  | .extension node => "extend " ++ node.print
  | .directive d => d.print

def Document.print (doc : Document) : String :=
  joinWith "\n" (doc.definitions.map (·.print))

end SchemaOverlay.Sdl

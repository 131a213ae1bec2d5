import SchemaOverlay.Sdl.Token.Scan

/-!
From tokens to a document. The grammar needs one token to see what comes next, and nothing that was
read is ever read again. A rule that opens brackets is given the number of brackets that may still
be opened, so that at most 50 are open at a time.
-/
namespace SchemaOverlay.Sdl

abbrev Parser := StateT (List Token) (Except SyntaxError)

namespace Parser

def maxOpen : Nat := 50

def peek : Parser (Option Token) := do return (← get).head?

def next : Parser Token := do
  match ← get with
  | [] => throw .endOfText
  | t :: rest =>
    set rest
    return t

def refuse {α : Type} : Parser α := do throw (.unexpected (← next))

def isNext (t : Token) : Parser Bool := do return (← peek) = some t

def expect (t : Token) : Parser Unit := do
  unless ← isNext t do refuse
  discard next

def accept (t : Token) : Parser Bool := do
  if ← isNext t then
    discard next
    return true
  return false

def name : Parser Name := do
  match ← peek with
  | some (.name n) =>
    discard next
    return n
  | _ => refuse

def description : Parser (Option String) := do
  match ← peek with
  | some (.string s) =>
    discard next
    return some s
  | _ => return none

/-- Repeats `item`, at most `n` times, while the next token satisfies `starts`. -/
def repeatUpTo {α : Type} (starts : Token → Bool) (item : Parser α) : Nat → Parser (List α)
  | 0 => return []
  | n + 1 => do
    if (← peek).any starts then
      let a ← item
      let more ← repeatUpTo starts item n
      return a :: more
    return []

/-- Repeats `item` while the next token satisfies `starts`. An item consumes a token, so the number
of tokens bounds the number of items. -/
def whileNext {α : Type} (starts : Token → Bool) (item : Parser α) : Parser (List α) := do
  repeatUpTo starts item (← get).length

def upTo {α : Type} (close : Token) (item : Parser α) : Parser (List α) := do
  let items ← whileNext (· ≠ close) item
  expect close
  return items

def someUpTo {α : Type} (close : Token) (item : Parser α) : Parser (List α) := do
  let first ← item
  let more ← upTo close item
  return first :: more

/-- Consumes an opening token; `inside` is told how many brackets may be opened further in. -/
def opening {α : Type} (t : Token) (room : Nat) (inside : Nat → Parser α) : Parser α := do
  expect t
  match room with
  | 0 => throw .tooDeep
  | room + 1 => inside room

/-- Items with a token before each but the first, where it is optional. -/
def separated {α : Type} (mark : Token) (item : Parser α) : Parser (List α) := do
  discard (accept mark)
  let first ← item
  let more ← whileNext (· = mark) (do expect mark; item)
  return first :: more

/-- Inserts a field by name; a field of the same name is replaced. -/
def insertSorted (n : Name) (v : Value) : List (Name × Value) → List (Name × Value)
  | [] => [(n, v)]
  | (m, w) :: rest =>
    if n < m then (n, v) :: (m, w) :: rest
    else if n = m then (n, v) :: rest
    else (m, w) :: insertSorted n v rest

def sortFields (fields : List (Name × Value)) : List (Name × Value) :=
  fields.foldl (fun sorted (n, v) => insertSorted n v sorted) []

def wordValue : Name → Value
  | "true" => .boolean true
  | "false" => .boolean false
  | "null" => .null
  | n => .enum n

def valueFrom (vars : Bool) (inside : Option (Parser Value)) (t : Token) : Parser Value :=
  match t with
  | .name n => return wordValue n
  | .int n => return .int n
  | .float x => return .float x
  | .string s => return .string s
  | .mark .dollar => if vars then do return .var (← name) else refuse
  | .mark .openBracket =>
    match inside with
    | none => throw .tooDeep
    | some inside => do return .list (← upTo (.mark .closeBracket) inside)
  | .mark .openBrace =>
    match inside with
    | none => throw .tooDeep
    | some inside => do
      let fields ← upTo (.mark .closeBrace) (do
        let n ← name
        expect (.mark .colon)
        return (n, ← inside))
      return .object (sortFields fields)
  | t => throw (.unexpected t)

def value (vars : Bool) : Nat → Parser Value
  | 0 => do valueFrom vars none (← next)
  | room + 1 => do valueFrom vars (some (value vars room)) (← next)

def typeRef (room : Nat) : Parser TypeRef := do
  let inner ← match ← next with
    | .name n => pure (.named n)
    | .mark .openBracket =>
      match room with
      | 0 => throw .tooDeep
      | room + 1 =>
        let item ← typeRef room
        expect (.mark .closeBracket)
        pure (.list item)
    | t => throw (.unexpected t)
  if ← accept (.mark .bang) then return .nonNull inner
  return inner

def inParens {α : Type} (room : Nat) (item : Nat → Parser α) : Parser (List α) := do
  if ← isNext (.mark .openParen) then
    opening (.mark .openParen) room fun room => someUpTo (.mark .closeParen) (item room)
  else return []

def inBraces {α : Type} (room : Nat) (item : Nat → Parser α) : Parser (List α) := do
  if ← isNext (.mark .openBrace) then
    opening (.mark .openBrace) room fun room => someUpTo (.mark .closeBrace) (item room)
  else return []

def directive (room : Nat) : Parser Directive := do
  expect (.mark .atSign)
  let n ← name
  let arguments ← inParens room fun room => do
    let n ← name
    expect (.mark .colon)
    return (n, ← value true room)
  return ⟨n, arguments⟩

def directives (room : Nat) : Parser (List Directive) :=
  whileNext (· = .mark .atSign) (directive room)

def inputValue (room : Nat) : Parser InputValue := do
  let description ← description
  let n ← name
  expect (.mark .colon)
  let valueType ← typeRef room
  let default ← do
    if ← accept (.mark .equals) then pure (some (← value false room)) else pure none
  let directives ← directives room
  return ⟨description, n, valueType, default, directives⟩

def field (room : Nat) : Parser Field := do
  let description ← description
  let n ← name
  let arguments ← inParens room inputValue
  expect (.mark .colon)
  let fieldType ← typeRef room
  let directives ← directives room
  return ⟨description, n, arguments, fieldType, directives⟩

def enumValue (room : Nat) : Parser EnumValue := do
  let description ← description
  let n ← name
  let directives ← directives room
  return ⟨description, n, directives⟩

def implements : Parser (List Name) := do
  if ← accept (.name "implements") then separated (.mark .ampersand) name else return []

def scalarNode : Parser TypeNode := do
  let n ← name
  let directives ← directives maxOpen
  return ⟨n, directives, .scalar⟩

def objectNode : Parser TypeNode := do
  let n ← name
  let interfaces ← implements
  let directives ← directives maxOpen
  let fields ← inBraces maxOpen field
  return ⟨n, directives, .object interfaces fields⟩

def interfaceNode : Parser TypeNode := do
  let n ← name
  let interfaces ← implements
  let directives ← directives maxOpen
  let fields ← inBraces maxOpen field
  return ⟨n, directives, .interface interfaces fields⟩

def unionNode : Parser TypeNode := do
  let n ← name
  let directives ← directives maxOpen
  let members ← do
    if ← accept (.mark .equals) then separated (.mark .pipe) name else pure []
  return ⟨n, directives, .union members⟩

def enumNode : Parser TypeNode := do
  let n ← name
  let directives ← directives maxOpen
  let values ← inBraces maxOpen enumValue
  return ⟨n, directives, .enum values⟩

def inputNode : Parser TypeNode := do
  let n ← name
  let directives ← directives maxOpen
  let fields ← inBraces maxOpen inputValue
  return ⟨n, directives, .inputObject fields⟩

def typeNode? : Name → Option (Parser TypeNode)
  | "scalar" => some scalarNode
  | "type" => some objectNode
  | "interface" => some interfaceNode
  | "union" => some unionNode
  | "enum" => some enumNode
  | "input" => some inputNode
  | _ => none

/-- Whether a node extends anything. That an interface implements others does not count. -/
def extendsSomething (node : TypeNode) : Bool :=
  !node.directives.isEmpty || match node.body with
    | .scalar => false
    | .object interfaces fields => !interfaces.isEmpty || !fields.isEmpty
    | .interface _ fields => !fields.isEmpty
    | .union members => !members.isEmpty
    | .enum values => !values.isEmpty
    | .inputObject fields => !fields.isEmpty

def extension : Parser Definition := do
  let keyword ← name
  match typeNode? keyword with
  | none => throw (.unexpected (.name keyword))
  | some node =>
    let node ← node
    if extendsSomething node then return .extension node
    match ← peek with
    | some t => throw (.unexpected t)
    | none => throw .endOfText

def location : Parser Location := do
  let word ← name
  match Location.ofWord? word with
  | some l => return l
  | none => throw (.unexpected (.name word))

/-- The locations of a directive. There may be none, if neither a name nor a bar comes next. -/
def locations : Parser (List Location) := do
  match ← peek with
  | some (.name _) | some (.mark .pipe) => separated (.mark .pipe) location
  | _ => return []

def directiveDefinition (description : Option String) : Parser Definition := do
  expect (.mark .atSign)
  let n ← name
  let arguments ← inParens maxOpen inputValue
  let repeatable ← accept (.name "repeatable")
  expect (.name "on")
  let locations ← locations
  return .directive ⟨description, n, arguments, repeatable, locations⟩

/-- Adds a root operation to a schema definition that has none of its kind. -/
def addRoot? (s : SchemaDefinition) (operation type : Name) : Option SchemaDefinition :=
  match operation with
  | "query" => if s.query.isNone then some { s with query := some type } else none
  | "mutation" => if s.mutation.isNone then some { s with mutation := some type } else none
  | "subscription" =>
    if s.subscription.isNone then some { s with subscription := some type } else none
  | _ => none

def schemaDefinition : Parser Definition := do
  let directives ← directives maxOpen
  expect (.mark .openBrace)
  let roots ← upTo (.mark .closeBrace) (do
    let operation ← name
    expect (.mark .colon)
    return (operation, ← name))
  let bare : SchemaDefinition := ⟨directives, none, none, none⟩
  match roots.foldlM (fun s (operation, type) => addRoot? s operation type) bare with
  | some s => return .schema s
  | none => throw (.unexpected (.mark .closeBrace))

def typeDefinition (description : Option String) (keyword : Name) : Parser Definition := do
  match typeNode? keyword with
  | some node => return .type description (← node)
  | none => throw (.unexpected (.name keyword))

def definition : Parser Definition := do
  let description ← description
  let keyword ← name
  match keyword, description with
  | "directive", _ => directiveDefinition description
  | "schema", none => schemaDefinition
  | "extend", none => extension
  | _, _ => typeDefinition description keyword

def document : Parser Document := do
  let first ← definition
  let more ← whileNext (fun _ => true) definition
  return ⟨first :: more⟩

end Parser

/-- The document whose tokens are given. The rule for documents stops at the end only. -/
def Document.ofTokens (tokens : List Token) : Except SyntaxError Document :=
  (·.1) <$> Parser.document.run tokens

def Document.parse (text : String) : Except SyntaxError Document := do
  Document.ofTokens (← scan text.toList)

end SchemaOverlay.Sdl

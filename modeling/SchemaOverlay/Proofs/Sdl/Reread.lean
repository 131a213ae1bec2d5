import SchemaOverlay.Proofs.Sdl.Layout

/-!
What a reader makes of a printed node: strings as their literals are read, and floats as integers
where they are printed without a point. The node that is read is laid out as the node that was
printed, piece by piece.
-/
namespace SchemaOverlay.Sdl

def rereadText (s : String) : String := String.ofList (reread s.toList)

def rereadFloat (x : Binary64) : Value :=
  match x.token? with
  | some (.int n) => .int n
  | some (.name n) => .enum n
  | _ => .float x

mutual

def Value.reread : Value → Value
  | .float x => rereadFloat x
  | .string s => .string (rereadText s)
  | .list items => .list (rereadItems items)
  | .object fields => .object (rereadFields fields)
  | v => v

def rereadItems : List Value → List Value
  | [] => []
  | v :: rest => v.reread :: rereadItems rest

def rereadFields : List (Name × Value) → List (Name × Value)
  | [] => []
  | (n, v) :: rest => (n, v.reread) :: rereadFields rest

end

def Directive.reread (d : Directive) : Directive := ⟨d.name, rereadFields d.arguments⟩

def InputValue.reread (v : InputValue) : InputValue :=
  ⟨v.description.map rereadText, v.name, v.valueType, v.default.map Value.reread,
    v.directives.map Directive.reread⟩

def Field.reread (f : Field) : Field :=
  ⟨f.description.map rereadText, f.name, f.arguments.map InputValue.reread, f.fieldType,
    f.directives.map Directive.reread⟩

def EnumValue.reread (v : EnumValue) : EnumValue :=
  ⟨v.description.map rereadText, v.name, v.directives.map Directive.reread⟩

def TypeBody.reread : TypeBody → TypeBody
  | .scalar => .scalar
  | .object interfaces fields => .object interfaces (fields.map Field.reread)
  | .interface implements fields => .interface implements (fields.map Field.reread)
  | .union members => .union members
  | .enum values => .enum (values.map EnumValue.reread)
  | .inputObject fields => .inputObject (fields.map InputValue.reread)

def TypeNode.reread (node : TypeNode) : TypeNode :=
  ⟨node.name, node.directives.map Directive.reread, node.body.reread⟩

def DirectiveDefinition.reread (d : DirectiveDefinition) : DirectiveDefinition :=
  { d with
    description := d.description.map rereadText
    arguments := d.arguments.map InputValue.reread }

def SchemaDefinition.reread (s : SchemaDefinition) : SchemaDefinition :=
  { s with directives := s.directives.map Directive.reread }

def Definition.reread : Definition → Definition
  | .schema s => .schema s.reread
  | .type description node => .type (description.map rereadText) node.reread
  | .extension node => .extension node.reread
  | .directive d => .directive d.reread

def Document.reread (doc : Document) : Document := ⟨doc.definitions.map Definition.reread⟩

theorem rereadItems_eq (items : List Value) : rereadItems items = items.map Value.reread := by
  induction items with
  | nil => rfl
  | cons v rest ih => rw [rereadItems, ih, List.map_cons]

theorem rereadFields_eq (fields : List (Name × Value)) :
    rereadFields fields = fields.map fun f => (f.1, f.2.reread) := by
  induction fields with
  | nil => rfl
  | cons f rest ih => rw [rereadFields, ih, List.map_cons]

section Pieces

@[simp] theorem reread_word (n : Name) : (Piece.word n).reread = .word n := rfl

@[simp] theorem reread_mark (m : Mark) : (Piece.mark m).reread = .mark m := rfl

@[simp] theorem reread_blank : Piece.blank.reread = .blank := rfl

@[simp] theorem reread_newline : Piece.newline.reread = .newline := rfl

@[simp] theorem reread_comma : Piece.comma.reread = .comma := rfl

@[simp] theorem reread_steps (indent : Nat) : (Piece.steps indent).reread = .steps indent := rfl

@[simp] theorem reread_string (indent : Nat) (s : String) :
    (Piece.string indent s).reread = .string indent (rereadText s) := rfl

theorem map_joined (separator : List Piece) (members : List (List Piece)) :
    (joined separator members).map Piece.reread =
      joined (separator.map Piece.reread) (members.map (List.map Piece.reread)) := by
  induction members with
  | nil => rfl
  | cons ps rest ih =>
    cases rest with
    | nil => rfl
    | cons qs more =>
      rw [joined, List.map_append, List.map_append, ih]
      rfl

theorem map_inParens (members : List (List Piece)) :
    (inParens members).map Piece.reread = inParens (members.map (List.map Piece.reread)) := by
  have inside := map_joined [.comma] members
  unfold inParens
  cases members with
  | nil => rfl
  | cons ps rest => simp_all

theorem map_inBraces (members : List (List Piece)) :
    (inBraces members).map Piece.reread = inBraces (members.map (List.map Piece.reread)) := by
  cases members with
  | nil => rfl
  | cons ps rest => simp [inBraces, List.map_flatten]

theorem map_listing {lead : Piece} (fixed : lead.reread = lead) (mark : Mark) (names : List Name) :
    (listing lead mark names).map Piece.reread = listing lead mark names := by
  have inside := map_joined [.blank, .mark mark, .blank] (names.map fun n => [.word n])
  unfold listing
  cases names with
  | nil => rfl
  | cons n rest => simp_all [Function.comp_def]

theorem map_pieces_float (indent : Nat) {x : Binary64} :
    (rereadFloat x).pieces indent = [(Piece.float x).reread] := by
  unfold rereadFloat
  cases read : x.token? with
  | none => simp [Value.pieces, Piece.reread, read]
  | some t =>
    rcases token?_cases read with rfl | ⟨n, rfl, _⟩ | ⟨rfl, _⟩ <;>
      simp [Value.pieces, Piece.reread, read, Piece.ofToken]

theorem Value.pieces_reread (indent : Nat) (v : Value) :
    v.reread.pieces indent = (v.pieces indent).map Piece.reread := by
  induction v using Value.induction with
  | float x => exact map_pieces_float indent
  | list items ih =>
    have inside : items.map (fun v => v.reread.pieces indent) =
        items.map fun v => (v.pieces indent).map Piece.reread := List.map_congr_left ih
    simp [reread, pieces, rereadItems_eq, itemPieces_eq, map_joined, Function.comp_def, inside]
  | object fields ih =>
    have inside : fields.map
        (fun f => Piece.word f.1 :: .mark .colon :: .blank :: f.2.reread.pieces indent) =
        fields.map fun f => Piece.word f.1 :: .mark .colon :: .blank ::
          (f.2.pieces indent).map Piece.reread :=
      List.map_congr_left fun f member => by rw [ih f member]
    simp [reread, pieces, rereadFields_eq, fieldPieces_eq, map_joined, Function.comp_def, inside]
  | _ => simp [reread, pieces] <;> rfl

theorem TypeRef.pieces_reread (t : TypeRef) : t.pieces.map Piece.reread = t.pieces := by
  induction t with
  | named n => rfl
  | list item ih => simp [pieces, ih]
  | nonNull inner ih => simp [pieces, ih]

theorem Directive.pieces_reread (indent : Nat) (d : Directive) :
    d.reread.pieces indent = (d.pieces indent).map Piece.reread := by
  simp [reread, pieces, rereadFields_eq, fieldPieces_eq, map_inParens, Function.comp_def,
    Value.pieces_reread]

theorem directivePieces_reread (indent : Nat) (ds : List Directive) :
    directivePieces indent (ds.map Directive.reread) =
      (directivePieces indent ds).map Piece.reread := by
  simp [directivePieces, List.flatMap_map, List.map_flatMap, Directive.pieces_reread]

theorem inlineDescription_reread (indent : Nat) (description : Option String) :
    inlineDescription indent (description.map rereadText) =
      (inlineDescription indent description).map Piece.reread := by
  cases description <;> rfl

theorem descriptionLines_reread (indent : Nat) (description : Option String) :
    descriptionLines indent (description.map rereadText) =
      (descriptionLines indent description).map Piece.reread := by
  cases description <;> rfl

theorem InputValue.pieces_reread (indent : Nat) (v : InputValue) :
    v.reread.pieces indent = (v.pieces indent).map Piece.reread := by
  have default : defaultPieces indent (v.default.map Value.reread) =
      (defaultPieces indent v.default).map Piece.reread := by
    cases v.default with
    | none => rfl
    | some d => simp [defaultPieces, Value.pieces_reread]
  simp [reread, pieces, default, inlineDescription_reread, directivePieces_reread,
    TypeRef.pieces_reread]

theorem Field.pieces_reread (indent : Nat) (f : Field) :
    f.reread.pieces indent = (f.pieces indent).map Piece.reread := by
  simp [reread, pieces, descriptionLines_reread, directivePieces_reread, TypeRef.pieces_reread,
    map_inParens, Function.comp_def, InputValue.pieces_reread]

theorem InputValue.line_reread (indent : Nat) (v : InputValue) :
    v.reread.line indent = (v.line indent).map Piece.reread := by
  simp [line, pieces_reread]

theorem EnumValue.pieces_reread (indent : Nat) (v : EnumValue) :
    v.reread.pieces indent = (v.pieces indent).map Piece.reread := by
  simp [reread, pieces, inlineDescription_reread, directivePieces_reread]

theorem TypeBody.pieces_reread (body : TypeBody) :
    body.reread.pieces = body.pieces.map Piece.reread := by
  cases body with
  | scalar => rfl
  | union members => exact (map_listing rfl _ _).symm
  | _ =>
    simp [reread, pieces, map_inBraces, Function.comp_def, Field.pieces_reread,
      EnumValue.pieces_reread, InputValue.line_reread]

theorem TypeNode.pieces_reread (node : TypeNode) :
    node.reread.pieces = node.pieces.map Piece.reread := by
  have keyword : node.reread.keyword = node.keyword := by
    unfold reread TypeNode.keyword
    cases node.body <;> rfl
  have interfaces : node.body.reread.interfaces = node.body.interfaces := by
    cases node.body <;> rfl
  have body := node.body.pieces_reread
  rw [pieces, keyword]
  simp [reread, pieces, interfaces, body, directivePieces_reread,
    map_listing (reread_word "implements")]

theorem DirectiveDefinition.pieces_reread (d : DirectiveDefinition) :
    d.reread.pieces = d.pieces.map Piece.reread := by
  cases again : d.repeatable <;>
    simp [reread, pieces, again, descriptionLines_reread, map_inParens, Function.comp_def,
      InputValue.pieces_reread, map_listing (reread_word "on")]

theorem SchemaDefinition.pieces_reread (s : SchemaDefinition) :
    s.reread.pieces = s.pieces.map Piece.reread := by
  have root : ∀ operation type,
      (rootPieces operation type).map Piece.reread = rootPieces operation type := by
    intro operation type
    cases type <;> rfl
  simp [reread, pieces, directivePieces_reread, root]

theorem Definition.pieces_reread (d : Definition) :
    d.reread.pieces = d.pieces.map Piece.reread := by
  cases d with
  | schema s => exact s.pieces_reread
  | type description node => simp [reread, pieces, descriptionLines_reread, TypeNode.pieces_reread]
  | extension node => simp [reread, pieces, TypeNode.pieces_reread]
  | directive d => exact d.pieces_reread

theorem Document.pieces_reread (doc : Document) :
    doc.reread.pieces = doc.pieces.map Piece.reread := by
  simp [reread, pieces, map_joined, Function.comp_def, Definition.pieces_reread]

end Pieces

end SchemaOverlay.Sdl

import SchemaOverlay.Proofs.Sdl.Piece
import SchemaOverlay.Sdl.Printer

/-!
The layout of a printed document: the pieces that each node is printed as. Every name, number and
string that is printed has an edge behind it, so that the text is scanned piece by piece.
-/
namespace SchemaOverlay.Sdl

open Piece (render)

namespace Piece

def blank : Piece := .gap [' ']

def newline : Piece := .gap ['\n']

def steps (indent : Nat) : Piece := .gap (spaces indent)

def comma : Piece := .gap [',', ' ']

end Piece

def joined (separator : List Piece) : List (List Piece) → List Piece
  | [] => []
  | [ps] => ps
  | ps :: qs :: more => ps ++ separator ++ joined separator (qs :: more)

def inParens (members : List (List Piece)) : List Piece :=
  if members.isEmpty then []
  else .mark .openParen :: joined [.comma] members ++ [.mark .closeParen]

mutual

def Value.pieces (indent : Nat) : Value → List Piece
  | .var n => [.mark .dollar, .word n]
  | .int n => [.int n]
  | .float x => [.float x]
  | .string s => [.string indent s]
  | .boolean b => [.word (if b then "true" else "false")]
  | .null => [.word "null"]
  | .enum n => [.word n]
  | .list items =>
    .mark .openBracket :: joined [.comma] (itemPieces indent items) ++ [.mark .closeBracket]
  | .object fields =>
    .mark .openBrace :: joined [.comma] (fieldPieces indent fields) ++ [.mark .closeBrace]

def itemPieces (indent : Nat) : List Value → List (List Piece)
  | [] => []
  | v :: rest => v.pieces indent :: itemPieces indent rest

def fieldPieces (indent : Nat) : List (Name × Value) → List (List Piece)
  | [] => []
  | (n, v) :: rest =>
    (.word n :: .mark .colon :: .blank :: v.pieces indent) :: fieldPieces indent rest

end

def TypeRef.pieces : TypeRef → List Piece
  | .named n => [.word n]
  | .list item => .mark .openBracket :: item.pieces ++ [.mark .closeBracket]
  | .nonNull inner => inner.pieces ++ [.mark .bang]

def Directive.pieces (indent : Nat) (d : Directive) : List Piece :=
  .mark .atSign :: .word d.name :: inParens (fieldPieces indent d.arguments)

def directivePieces (indent : Nat) (ds : List Directive) : List Piece :=
  ds.flatMap fun d => .blank :: d.pieces indent

def inlineDescription (indent : Nat) : Option String → List Piece
  | none => []
  | some s => [.string indent s, .blank]

def descriptionLines (indent : Nat) : Option String → List Piece
  | none => []
  | some s => [.steps indent, .string indent s, .newline]

def defaultPieces (indent : Nat) : Option Value → List Piece
  | none => []
  | some v => .blank :: .mark .equals :: .blank :: v.pieces indent

def InputValue.pieces (indent : Nat) (v : InputValue) : List Piece :=
  inlineDescription indent v.description ++ .word v.name :: .mark .colon :: .blank ::
    v.valueType.pieces ++ defaultPieces indent v.default ++ directivePieces indent v.directives

def InputValue.line (indent : Nat) (v : InputValue) : List Piece :=
  .steps indent :: v.pieces indent ++ [.newline]

def Field.pieces (indent : Nat) (f : Field) : List Piece :=
  descriptionLines indent f.description ++ .steps indent :: .word f.name ::
    inParens (f.arguments.map (·.pieces indent)) ++ .mark .colon :: .blank ::
    f.fieldType.pieces ++ directivePieces indent f.directives ++ [.newline]

def EnumValue.pieces (indent : Nat) (v : EnumValue) : List Piece :=
  .steps indent :: inlineDescription indent v.description ++ .word v.name ::
    directivePieces indent v.directives ++ [.newline]

def inBraces (members : List (List Piece)) : List Piece :=
  if members.isEmpty then []
  else .blank :: .mark .openBrace :: .newline :: members.flatten ++ [.mark .closeBrace]

def listing (lead : Piece) (mark : Mark) (names : List Name) : List Piece :=
  if names.isEmpty then []
  else .blank :: lead :: .blank ::
    joined [.blank, .mark mark, .blank] (names.map fun n => [.word n])

def TypeBody.interfaces : TypeBody → List Name
  | .object interfaces _ => interfaces
  | .interface implements _ => implements
  | _ => []

def TypeBody.pieces : TypeBody → List Piece
  | .scalar => []
  | .object _ fields | .interface _ fields => inBraces (fields.map (·.pieces 2))
  | .union members => listing (.mark .equals) .pipe members
  | .enum values => inBraces (values.map (·.pieces 2))
  | .inputObject fields => inBraces (fields.map (·.line 2))

def TypeNode.pieces (node : TypeNode) : List Piece :=
  .word node.keyword :: .blank :: .word node.name ::
    listing (.word "implements") .ampersand node.body.interfaces ++
    directivePieces 0 node.directives ++ node.body.pieces ++ [.newline]

def DirectiveDefinition.pieces (d : DirectiveDefinition) : List Piece :=
  descriptionLines 0 d.description ++ .word "directive" :: .blank :: .mark .atSign ::
    .word d.name :: inParens (d.arguments.map (·.pieces 0)) ++
    (if d.repeatable then [.blank, .word "repeatable"] else []) ++
    listing (.word "on") .pipe (d.locations.map (·.word)) ++ [.newline]

def rootPieces (operation : Name) : Option Name → List Piece
  | none => []
  | some n => [.steps 2, .word operation, .mark .colon, .blank, .word n, .newline]

def SchemaDefinition.pieces (s : SchemaDefinition) : List Piece :=
  .word "schema" :: directivePieces 0 s.directives ++ .blank :: .mark .openBrace :: .newline ::
    rootPieces "query" s.query ++ rootPieces "mutation" s.mutation ++
    rootPieces "subscription" s.subscription ++ [.mark .closeBrace, .newline]

def Definition.pieces : Definition → List Piece
  | .schema s => s.pieces
  | .type description node => descriptionLines 0 description ++ node.pieces
  | .extension node => .word "extend" :: .blank :: node.pieces
  | .directive d => d.pieces

def Document.pieces (doc : Document) : List Piece :=
  joined [.newline] (doc.definitions.map (·.pieces))

/-- What holds of the simple values, and of a list or an object if it does of what is inside. -/
@[elab_as_elim]
theorem Value.induction {motive : Value → Prop} (var : ∀ n, motive (.var n))
    (int : ∀ n, motive (.int n)) (float : ∀ x, motive (.float x)) (string : ∀ s, motive (.string s))
    (boolean : ∀ b, motive (.boolean b)) (null : motive .null) (enum : ∀ n, motive (.enum n))
    (list : ∀ items, (∀ v ∈ items, motive v) → motive (.list items))
    (object : ∀ fields : List (Name × Value), (∀ f ∈ fields, motive f.2) → motive (.object fields))
    (v : Value) : motive v :=
  @Value.rec motive (fun items => ∀ w ∈ items, motive w) (fun fields => ∀ f ∈ fields, motive f.2)
    (fun f => motive f.2) var int float string boolean null enum list object
    (fun _ member => nomatch member)
    (fun _ _ first rest => List.forall_mem_cons.mpr ⟨first, rest⟩)
    (fun _ member => nomatch member)
    (fun _ _ first rest => List.forall_mem_cons.mpr ⟨first, rest⟩)
    (fun _ _ inside => inside) v

theorem itemPieces_eq (indent : Nat) (items : List Value) :
    itemPieces indent items = items.map (·.pieces indent) := by
  induction items with
  | nil => rfl
  | cons v rest ih => rw [itemPieces, ih, List.map_cons]

theorem fieldPieces_eq (indent : Nat) (fields : List (Name × Value)) :
    fieldPieces indent fields =
      fields.map fun f => .word f.1 :: .mark .colon :: .blank :: f.2.pieces indent := by
  induction fields with
  | nil => rfl
  | cons f rest ih => rw [fieldPieces, ih, List.map_cons]

theorem forall_mem_joined {P : Piece → Prop} {separator : List Piece} (apart : ∀ p ∈ separator, P p)
    {members : List (List Piece)} :
    (∀ p ∈ joined separator members, P p) ↔ ∀ ps ∈ members, ∀ p ∈ ps, P p := by
  induction members with
  | nil => simp [joined]
  | cons ps rest ih =>
    cases rest with
    | nil => simp [joined]
    | cons qs more =>
      rw [joined, List.forall_mem_append, List.forall_mem_append, ih,
        List.forall_mem_cons (l := qs :: more)]
      exact and_congr_left' (and_iff_left apart)

theorem forall_mem_inParens {P : Piece → Prop} (plain : ∀ m, P (.mark m)) (comma : P .comma)
    {members : List (List Piece)} :
    (∀ p ∈ inParens members, P p) ↔ ∀ ps ∈ members, ∀ p ∈ ps, P p := by
  have inside : (∀ p ∈ joined [.comma] members, P p) ↔ ∀ ps ∈ members, ∀ p ∈ ps, P p :=
    forall_mem_joined (by simpa using comma)
  cases members with
  | nil => simp [inParens]
  | cons ps rest =>
    rw [inParens, if_neg (by simp), List.cons_append, List.forall_mem_cons, List.forall_mem_append,
      inside]
    simp [plain]

theorem forall_mem_inBraces {P : Piece → Prop} (plain : ∀ m, P (.mark m)) (blank : P .blank)
    (newline : P .newline) {members : List (List Piece)} :
    (∀ p ∈ inBraces members, P p) ↔ ∀ ps ∈ members, ∀ p ∈ ps, P p := by
  have inside : (∀ p ∈ members.flatten, P p) ↔ ∀ ps ∈ members, ∀ p ∈ ps, P p := by
    simp only [List.mem_flatten, forall_exists_index, and_imp]
    exact ⟨fun each ps listed p member => each p ps listed member,
      fun each p ps listed member => each ps listed p member⟩
  cases members with
  | nil => simp [inBraces]
  | cons ps rest =>
    rw [inBraces, if_neg (by simp), List.cons_append, List.cons_append, List.cons_append,
      List.forall_mem_cons, List.forall_mem_cons, List.forall_mem_cons, List.forall_mem_append,
      inside]
    simp [plain, blank, newline]

theorem forall_mem_listing {P : Piece → Prop} {lead : Piece} (first : P lead)
    (plain : ∀ m, P (.mark m))
    (blank : P .blank) {mark : Mark} {names : List Name} (each : ∀ n ∈ names, P (.word n)) :
    ∀ p ∈ listing lead mark names, P p := by
  have inside : ∀ p ∈ joined [.blank, .mark mark, .blank] (names.map fun n => [.word n]), P p :=
    (forall_mem_joined (by simp [plain, blank])).mpr (by simpa using each)
  unfold listing
  split
  · simp
  · simpa [first, blank] using inside

section Printing

def Shows (s : String) (ps : List Piece) : Prop := s.toList = render ps

@[simp] theorem render_nil : render [] = [] := rfl

@[simp] theorem render_cons (p : Piece) (ps : List Piece) :
    render (p :: ps) = p.text ++ render ps :=
  rfl

@[simp] theorem render_append (ps qs : List Piece) : render (ps ++ qs) = render ps ++ render qs :=
  List.flatMap_append

theorem shows_joinWith {s : String} {separator : List Piece} (between : Shows s separator)
    {α : Type} {print : α → String} {pieces : α → List Piece} {as : List α}
    (each : ∀ a ∈ as, Shows (print a) (pieces a)) :
    Shows (joinWith s (as.map print)) (joined separator (as.map pieces)) := by
  induction as with
  | nil => rfl
  | cons a rest ih =>
    rw [List.forall_mem_cons] at each
    cases rest with
    | nil => exact each.1
    | cons b rest =>
      have later := ih each.2
      unfold Shows at *
      simp only [List.map_cons, joinWith, joined, String.toList_append, render_append] at later ⊢
      rw [each.1, between, later]

theorem shows_comma : Shows ", " [.comma] := rfl

theorem shows_newline : Shows "\n" [.newline] := rfl

@[simp] theorem text_blank : Piece.blank.text = [' '] := rfl

@[simp] theorem text_newline : Piece.newline.text = ['\n'] := rfl

@[simp] theorem text_steps (indent : Nat) : (Piece.steps indent).text = spaces indent := rfl

@[simp] theorem text_mark (m : Mark) : (Piece.mark m).text = [m.char] := rfl

@[simp] theorem text_word (n : Name) : (Piece.word n).text = n.toList := rfl

@[simp] theorem toList_quote (indent : Nat) (s : String) :
    (quote indent s).toList = (Piece.string indent s).text := String.toList_ofList

@[simp] theorem toList_indentation (indent : Nat) : (indentation indent).toList = spaces indent :=
  String.toList_ofList

theorem shows_join {α : Type} {print : α → String} {pieces : α → List Piece} {as : List α}
    (each : ∀ a ∈ as, Shows (print a) (pieces a)) :
    Shows (String.join (as.map print)) (as.flatMap pieces) := by
  induction as with
  | nil => rfl
  | cons a rest ih =>
    rw [List.forall_mem_cons] at each
    have later := ih each.2
    unfold Shows at *
    rw [List.map_cons, String.join_cons, String.toList_append, List.flatMap_cons, render_append,
      each.1, later]

theorem shows_inParens {α : Type} {print : α → String} {pieces : α → List Piece} (as : List α)
    (each : ∀ a ∈ as, Shows (print a) (pieces a)) :
    Shows (if as.isEmpty then "" else "(" ++ joinWith ", " (as.map print) ++ ")")
      (inParens (as.map pieces)) := by
  have inside := shows_joinWith shows_comma each
  cases as with
  | nil => rfl
  | cons a rest => simp_all [Shows, inParens, Mark.char]

theorem shows_inBraces {α : Type} {print : α → String} {pieces : α → List Piece} (as : List α)
    (each : ∀ a ∈ as, Shows (print a) (pieces a)) :
    Shows (printBlock (as.map print)) (inBraces (as.map pieces)) := by
  have inside := shows_join each
  cases as with
  | nil => rfl
  | cons a rest => simp_all [Shows, inBraces, printBlock, Mark.char, List.flatMap]

theorem printItems_eq (indent : Nat) (items : List Value) :
    printItems indent items = items.map (·.print indent) := by
  induction items with
  | nil => rfl
  | cons v rest ih => rw [printItems, ih, List.map_cons]

theorem printFields_eq (indent : Nat) (fields : List (Name × Value)) :
    printFields indent fields = fields.map fun f => f.1 ++ ": " ++ f.2.print indent := by
  induction fields with
  | nil => rfl
  | cons f rest ih => rw [printFields, ih, List.map_cons]

theorem shows_field (n : Name) {s : String} {ps : List Piece} (shows : Shows s ps) :
    Shows (n ++ ": " ++ s) (.word n :: .mark .colon :: .blank :: ps) := by
  simp_all [Shows, Mark.char]

theorem Value.shows (indent : Nat) (v : Value) : Shows (v.print indent) (v.pieces indent) := by
  induction v using Value.induction with
  | var n => simp [Shows, print, pieces, Mark.char]
  | boolean b => cases b <;> simp [Shows, print, pieces]
  | list items ih =>
    have inside := shows_joinWith shows_comma ih
    simp_all [Shows, print, pieces, printItems_eq, itemPieces_eq, Mark.char]
  | object fields ih =>
    have inside := shows_joinWith shows_comma fun f member =>
      shows_field f.1 (ih f member)
    simp_all [Shows, print, pieces, printFields_eq, fieldPieces_eq, Mark.char]
  | _ => simp [Shows, print, pieces, Piece.text]

theorem TypeRef.shows (t : TypeRef) : Shows t.print t.pieces := by
  induction t with
  | named n => simp [Shows, print, pieces]
  | list item ih => simp_all [Shows, print, pieces, Mark.char]
  | nonNull inner ih => simp_all [Shows, print, pieces, Mark.char]

theorem Directive.shows (indent : Nat) (d : Directive) :
    Shows (d.print indent) (d.pieces indent) := by
  have inside := shows_inParens d.arguments fun f _ => shows_field f.1 (f.2.shows indent)
  unfold Shows at *
  rw [print, pieces, printFields_eq, fieldPieces_eq, String.toList_append, inside]
  simp [Mark.char]

theorem shows_directives (indent : Nat) (ds : List Directive) :
    Shows (printDirectives indent ds) (directivePieces indent ds) := by
  refine shows_join fun d _ => ?_
  have here := d.shows indent
  simp_all [Shows]

theorem shows_inlineDescription (indent : Nat) (description : Option String) :
    Shows (printInlineDescription indent description) (inlineDescription indent description) := by
  cases description <;> simp [Shows, printInlineDescription, inlineDescription]

theorem shows_descriptionLines (indent : Nat) (description : Option String) :
    Shows (printDescription indent description) (descriptionLines indent description) := by
  cases description <;> simp [Shows, printDescription, descriptionLines]

theorem InputValue.shows (indent : Nat) (v : InputValue) :
    Shows (v.print indent) (v.pieces indent) := by
  have description := shows_inlineDescription indent v.description
  have directives := shows_directives indent v.directives
  have type := v.valueType.shows
  unfold Shows at *
  cases known : v.default with
  | none => simp_all [print, pieces, defaultPieces, Mark.char]
  | some d =>
    have value := d.shows indent
    simp_all [Shows, print, pieces, defaultPieces, Mark.char]

theorem shows_arguments (indent : Nat) (vs : List InputValue) :
    Shows (printArguments indent vs) (inParens (vs.map (·.pieces indent))) :=
  shows_inParens vs fun v _ => v.shows indent

theorem Field.shows (indent : Nat) (f : Field) : Shows (f.print indent) (f.pieces indent) := by
  have description := shows_descriptionLines indent f.description
  have arguments := shows_arguments indent f.arguments
  have directives := shows_directives indent f.directives
  have type := f.fieldType.shows
  simp_all [Shows, print, pieces, Mark.char]

theorem InputValue.shows_line (indent : Nat) (v : InputValue) :
    Shows (v.printLine indent) (v.line indent) := by
  have value := v.shows indent
  simp_all [Shows, printLine, line]

theorem EnumValue.shows (indent : Nat) (v : EnumValue) :
    Shows (v.print indent) (v.pieces indent) := by
  have description := shows_inlineDescription indent v.description
  have directives := shows_directives indent v.directives
  simp_all [Shows, print, pieces]

theorem shows_listing (before between : String) (lead : Piece) (mark : Mark) (names : List Name)
    (ahead : before.toList = ' ' :: lead.text ++ [' '])
    (apart : between.toList = [' ', mark.char, ' ']) :
    Shows (if names.isEmpty then "" else before ++ joinWith between names)
      (listing lead mark names) := by
  have separator : Shows between [.blank, .mark mark, .blank] := by simp [Shows, apart]
  have each : ∀ n ∈ names, Shows (id n) [.word n] := fun n _ => by simp [Shows]
  have inside := shows_joinWith separator each
  cases names with
  | nil => rfl
  | cons n rest => simp_all [Shows, listing]

theorem TypeNode.shows (node : TypeNode) : Shows node.print node.pieces := by
  obtain ⟨name, ds, body⟩ := node
  have directives := shows_directives 0 ds
  have implements : ∀ names, Shows (printImplements names)
      (listing (.word "implements") .ampersand names) :=
    fun names => shows_listing _ _ _ _ names rfl rfl
  have fields : ∀ fields : List Field, Shows (printBlock (fields.map (·.print 2)))
      (inBraces (fields.map (·.pieces 2))) :=
    fun fields => shows_inBraces fields fun f _ => f.shows 2
  unfold Shows at *
  cases body with
  | scalar => simp_all [print, pieces, TypeBody.interfaces, TypeBody.pieces, listing]
  | object interfaces members => simp_all [print, pieces, TypeBody.interfaces, TypeBody.pieces]
  | interface interfaces members => simp_all [print, pieces, TypeBody.interfaces, TypeBody.pieces]
  | union members =>
    have listed := shows_listing " = " " | " (.mark .equals) .pipe members rfl rfl
    simp_all [Shows, print, pieces, TypeBody.interfaces, TypeBody.pieces, listing]
  | enum values =>
    have block := shows_inBraces values fun v _ => v.shows 2
    simp_all [Shows, print, pieces, TypeBody.interfaces, TypeBody.pieces, listing]
  | inputObject values =>
    have block := shows_inBraces values fun v _ => v.shows_line 2
    simp_all [Shows, print, pieces, TypeBody.interfaces, TypeBody.pieces, listing]

theorem DirectiveDefinition.shows (d : DirectiveDefinition) : Shows d.print d.pieces := by
  have description := shows_descriptionLines 0 d.description
  have arguments := shows_arguments 0 d.arguments
  have locations := shows_listing " on " " | " (.word "on") .pipe (d.locations.map (·.word)) rfl rfl
  simp only [List.isEmpty_map] at locations
  cases again : d.repeatable <;> simp_all [Shows, print, pieces, Mark.char]

theorem SchemaDefinition.shows (s : SchemaDefinition) : Shows s.print s.pieces := by
  have directives := shows_directives 0 s.directives
  have root : ∀ operation type, Shows (printRoot operation type) (rootPieces operation type) := by
    intro operation type
    cases type <;> simp [Shows, printRoot, rootPieces, Mark.char, spaces]
  have query := root "query" s.query
  have mutation := root "mutation" s.mutation
  have subscription := root "subscription" s.subscription
  simp_all [Shows, print, pieces, Mark.char]

theorem Definition.shows (d : Definition) : Shows d.print d.pieces := by
  cases d with
  | schema s => exact s.shows
  | type description node =>
    have above := shows_descriptionLines 0 description
    have below := node.shows
    simp_all [Shows, print, pieces]
  | extension node =>
    have below := node.shows
    simp_all [Shows, print, pieces]
  | directive d => exact d.shows

theorem Document.shows (doc : Document) : Shows doc.print doc.pieces :=
  shows_joinWith shows_newline fun d _ => d.shows

end Printing

section Spacing

@[simp] theorem spaced_nil (behind : Bool) : spaced [] behind = true := rfl

@[simp] theorem spaced_cons (p : Piece) (ps : List Piece) (behind : Bool) :
    spaced (p :: ps) behind = ((p.isLoose || startsEdge ps behind) && spaced ps behind) := rfl

attribute [simp] spaced_append startsEdge_append

@[simp] theorem isLoose_mark (m : Mark) : (Piece.mark m).isLoose = true := rfl

@[simp] theorem isLoose_word (n : Name) : (Piece.word n).isLoose = false := rfl

@[simp] theorem isLoose_blank : Piece.blank.isLoose = true := rfl

@[simp] theorem isLoose_newline : Piece.newline.isLoose = true := rfl

@[simp] theorem isLoose_comma : Piece.comma.isLoose = true := rfl

@[simp] theorem isLoose_steps (indent : Nat) : (Piece.steps indent).isLoose = true := rfl

@[simp] theorem startsEdge_nil (behind : Bool) : startsEdge [] behind = behind := rfl

@[simp] theorem startsEdge_mark (m : Mark) (ps : List Piece) (behind : Bool) :
    startsEdge (.mark m :: ps) behind = true := rfl

@[simp] theorem startsEdge_blank (ps : List Piece) (behind : Bool) :
    startsEdge (.blank :: ps) behind = true := rfl

@[simp] theorem startsEdge_newline (ps : List Piece) (behind : Bool) :
    startsEdge (.newline :: ps) behind = true := rfl

theorem spaced_joined {separator : List Piece} (edge : ∀ behind, startsEdge separator behind = true)
    (apart : ∀ behind, spaced separator behind = true) {members : List (List Piece)}
    (each : ∀ ps ∈ members, spaced ps true = true) :
    spaced (joined separator members) true = true := by
  induction members with
  | nil => rfl
  | cons ps rest ih =>
    rw [List.forall_mem_cons] at each
    cases rest with
    | nil => exact each.1
    | cons qs more =>
      have later := ih each.2
      simp [joined, edge, apart, each.1, later]

theorem spaced_listed (members : List (List Piece)) (each : ∀ ps ∈ members, spaced ps true = true) :
    spaced (joined [.comma] members) true = true :=
  spaced_joined (fun _ => rfl) (fun _ => rfl) each

@[simp] theorem startsEdge_inParens (members : List (List Piece)) :
    startsEdge (inParens members) true = true := by
  cases members <;> rfl

theorem spaced_inParens {members : List (List Piece)}
    (each : ∀ ps ∈ members, spaced ps true = true) :
    spaced (inParens members) true = true := by
  have inside := spaced_listed members each
  unfold inParens
  split <;> simp [inside]

@[simp] theorem startsEdge_inBraces (members : List (List Piece)) :
    startsEdge (inBraces members) true = true := by
  cases members <;> rfl

theorem spaced_inBraces {members : List (List Piece)}
    (each : ∀ ps ∈ members, ∀ behind, spaced ps behind = true) :
    spaced (inBraces members) true = true := by
  have inside : ∀ behind, spaced members.flatten behind = true := by
    induction members with
    | nil => exact fun _ => rfl
    | cons ps rest ih =>
      rw [List.forall_mem_cons] at each
      intro behind
      simp [each.1, ih each.2]
  unfold inBraces
  split <;> simp [inside]

@[simp] theorem startsEdge_listing (lead : Piece) (mark : Mark) (names : List Name) :
    startsEdge (listing lead mark names) true = true := by
  cases names <;> rfl

@[simp] theorem spaced_listing (lead : Piece) (mark : Mark) (names : List Name) :
    spaced (listing lead mark names) true = true := by
  have inside :
      spaced (joined [.blank, .mark mark, .blank] (names.map fun n => [.word n])) true = true :=
    spaced_joined (fun _ => rfl) (fun _ => rfl) (by simp)
  unfold listing
  split <;> simp [inside]

@[simp] theorem Value.spaced_pieces (indent : Nat) (v : Value) :
    spaced (v.pieces indent) true = true := by
  induction v using Value.induction with
  | list items ih =>
    have inside := spaced_listed (items.map (·.pieces indent)) (by simpa using ih)
    simp [pieces, itemPieces_eq, inside]
  | object fields ih =>
    have inside := spaced_listed (fieldPieces indent fields) (by
      rw [fieldPieces_eq, List.forall_mem_map]
      intro f member
      simp [ih f member])
    simp [pieces, inside]
  | _ => simp [pieces]

@[simp] theorem TypeRef.spaced_pieces (t : TypeRef) : spaced t.pieces true = true := by
  induction t with
  | _ => simp_all [pieces]

@[simp] theorem Directive.spaced_pieces (indent : Nat) (d : Directive) :
    spaced (d.pieces indent) true = true := by
  have inside : spaced (inParens (fieldPieces indent d.arguments)) true = true := by
    refine spaced_inParens ?_
    rw [fieldPieces_eq, List.forall_mem_map]
    intro f _
    simp
  simp [pieces, inside]

@[simp] theorem startsEdge_directivePieces (indent : Nat) (ds : List Directive) :
    startsEdge (directivePieces indent ds) true = true := by
  cases ds <;> rfl

@[simp] theorem spaced_directivePieces (indent : Nat) (ds : List Directive) :
    spaced (directivePieces indent ds) true = true := by
  induction ds with
  | nil => rfl
  | cons d rest ih =>
    have later : spaced (rest.flatMap fun d => .blank :: d.pieces indent) true = true := ih
    have edge := startsEdge_directivePieces indent rest
    rw [directivePieces] at edge
    simp [directivePieces, later, edge]

@[simp] theorem spaced_inlineDescription (indent : Nat) (description : Option String)
    (behind : Bool) :
    spaced (inlineDescription indent description) behind = true := by
  cases description <;> simp [inlineDescription]

@[simp] theorem spaced_descriptionLines (indent : Nat) (description : Option String)
    (behind : Bool) :
    spaced (descriptionLines indent description) behind = true := by
  cases description <;> simp [descriptionLines]

@[simp] theorem startsEdge_defaultPieces (indent : Nat) (v : Option Value) :
    startsEdge (defaultPieces indent v) true = true := by
  cases v <;> rfl

@[simp] theorem spaced_defaultPieces (indent : Nat) (v : Option Value) :
    spaced (defaultPieces indent v) true = true := by
  cases v <;> simp [defaultPieces]

@[simp] theorem InputValue.spaced_pieces (indent : Nat) (v : InputValue) :
    spaced (v.pieces indent) true = true := by
  simp [pieces]

theorem InputValue.spaced_line (indent : Nat) (v : InputValue) (behind : Bool) :
    spaced (v.line indent) behind = true := by
  simp [line]

theorem spaced_arguments (indent : Nat) (vs : List InputValue) :
    spaced (inParens (vs.map (·.pieces indent))) true = true :=
  spaced_inParens (by simp)

theorem Field.spaced_pieces (indent : Nat) (f : Field) (behind : Bool) :
    spaced (f.pieces indent) behind = true := by
  simp [pieces, spaced_arguments]

theorem EnumValue.spaced_pieces (indent : Nat) (v : EnumValue) (behind : Bool) :
    spaced (v.pieces indent) behind = true := by
  simp [pieces]

@[simp] theorem TypeBody.startsEdge_pieces (body : TypeBody) :
    startsEdge body.pieces true = true := by
  cases body <;> simp [pieces]

@[simp] theorem TypeBody.spaced_pieces (body : TypeBody) : spaced body.pieces true = true := by
  cases body with
  | scalar => rfl
  | object interfaces fields | interface interfaces fields =>
    exact spaced_inBraces (List.forall_mem_map.mpr fun f _ => f.spaced_pieces 2)
  | union members => exact spaced_listing ..
  | enum values => exact spaced_inBraces (List.forall_mem_map.mpr fun v _ => v.spaced_pieces 2)
  | inputObject fields => exact spaced_inBraces (List.forall_mem_map.mpr fun v _ => v.spaced_line 2)

@[simp] theorem TypeNode.spaced_pieces (node : TypeNode) (behind : Bool) :
    spaced node.pieces behind = true := by
  simp [pieces]

@[simp] theorem DirectiveDefinition.spaced_pieces (d : DirectiveDefinition) (behind : Bool) :
    spaced d.pieces behind = true := by
  cases again : d.repeatable <;> simp [pieces, again, spaced_arguments]

@[simp] theorem spaced_rootPieces (operation : Name) (type : Option Name) (behind : Bool) :
    spaced (rootPieces operation type) behind = true := by
  cases type <;> simp [rootPieces]

theorem Definition.spaced_pieces (d : Definition) (behind : Bool) :
    spaced d.pieces behind = true := by
  cases d <;> simp [pieces, SchemaDefinition.pieces]

theorem Document.spaced_pieces (doc : Document) : spaced doc.pieces true = true :=
  spaced_joined (fun _ => rfl) (fun _ => rfl)
    (List.forall_mem_map.mpr fun d _ => d.spaced_pieces true)

end Spacing

end SchemaOverlay.Sdl

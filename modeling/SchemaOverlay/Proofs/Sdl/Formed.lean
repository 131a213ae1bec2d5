import SchemaOverlay.Proofs.Edit.Merging
import SchemaOverlay.Proofs.Sdl.Layout
import SchemaOverlay.Sdl.Parser
import Mathlib.Order.Lattice
import Mathlib.Data.String.Basic

/-!
What a reader of texts can make: names that are names, integers of 64 bits, objects with sorted
fields, and brackets that are never open more than so many at a time. What is formed is printed as
pieces that are.
-/
namespace SchemaOverlay.Sdl

def Token.Formed : Token → Prop
  | .name n => IsName n
  | .int n => -2 ^ 63 ≤ n ∧ n < 2 ^ 63
  | .float x => x.magnitude.Canonical
  | .mark _ | .string _ => True

def SortedFields (fields : List (Name × Value)) : Prop := fields.Pairwise fun f g => f.1 < g.1

/-- The values in which no more than `room` brackets are open at a time. -/
inductive Value.Formed (vars : Bool) : Nat → Value → Prop
  | var {room : Nat} {n : Name} (allowed : vars = true) (name : IsName n) :
      Formed vars room (.var n)
  | int {room : Nat} {n : Int} (bounds : -2 ^ 63 ≤ n ∧ n < 2 ^ 63) : Formed vars room (.int n)
  | float {room : Nat} {x : Binary64} (canonical : x.magnitude.Canonical) :
      Formed vars room (.float x)
  | string {room : Nat} (s : String) : Formed vars room (.string s)
  | boolean {room : Nat} (b : Bool) : Formed vars room (.boolean b)
  | null {room : Nat} : Formed vars room .null
  | enum {room : Nat} {n : Name} (name : IsName n)
      (free : n ≠ "true" ∧ n ≠ "false" ∧ n ≠ "null") : Formed vars room (.enum n)
  | list {room : Nat} {items : List Value} (each : ∀ v ∈ items, Formed vars room v) :
      Formed vars (room + 1) (.list items)
  | object {room : Nat} {fields : List (Name × Value)} (sorted : SortedFields fields)
      (names : ∀ f ∈ fields, IsName f.1) (each : ∀ f ∈ fields, Formed vars room f.2) :
      Formed vars (room + 1) (.object fields)

inductive TypeRef.Formed : Nat → TypeRef → Prop
  | named {room : Nat} {n : Name} (name : IsName n) : Formed room (.named n)
  | list {room : Nat} {item : TypeRef} (inside : Formed room item) : Formed (room + 1) (.list item)
  | nonNull {room : Nat} {inner : TypeRef} (inside : Formed room inner)
      (once : ∀ t, inner ≠ .nonNull t) : Formed room (.nonNull inner)

structure Directive.Formed (room : Nat) (d : Directive) : Prop where
  name : IsName d.name
  arguments : ∀ a ∈ d.arguments, 0 < room ∧ IsName a.1 ∧ a.2.Formed true (room - 1)

structure InputValue.Formed (room : Nat) (v : InputValue) : Prop where
  name : IsName v.name
  type : v.valueType.Formed room
  default : ∀ d ∈ v.default, d.Formed false room
  directives : ∀ d ∈ v.directives, d.Formed room

structure Field.Formed (room : Nat) (f : Field) : Prop where
  name : IsName f.name
  arguments : ∀ v ∈ f.arguments, 0 < room ∧ v.Formed (room - 1)
  type : f.fieldType.Formed room
  directives : ∀ d ∈ f.directives, d.Formed room

structure EnumValue.Formed (room : Nat) (v : EnumValue) : Prop where
  name : IsName v.name
  directives : ∀ d ∈ v.directives, d.Formed room

def Entry.Formed : Entry → Prop
  | .directive d => d.Formed 50
  | .field f => f.Formed 49
  | .inputValue v => v.Formed 49
  | .enumValue v => v.Formed 49
  | .namedType n => IsName n

def TypeBody.AllEntries (P : Entry → Prop) : TypeBody → Prop
  | .scalar => True
  | .object interfaces fields => (∀ n ∈ interfaces, P (.namedType n)) ∧ ∀ f ∈ fields, P (.field f)
  | .interface _ fields => ∀ f ∈ fields, P (.field f)
  | .union members => ∀ n ∈ members, P (.namedType n)
  | .enum values => ∀ v ∈ values, P (.enumValue v)
  | .inputObject fields => ∀ v ∈ fields, P (.inputValue v)

theorem TypeBody.forall_entries_iff {P : Entry → Prop} {body : TypeBody} :
    (∀ c, ∀ e ∈ body.entries c, P e) ↔ body.AllEntries P := by
  constructor
  · intro each
    cases body with
    | scalar => trivial
    | object interfaces fields =>
      exact ⟨List.forall_mem_map.mp (each .interfaces), List.forall_mem_map.mp (each .fields)⟩
    | interface implements fields => exact List.forall_mem_map.mp (each .fields)
    | union members => exact List.forall_mem_map.mp (each .types)
    | enum values => exact List.forall_mem_map.mp (each .values)
    | inputObject fields => exact List.forall_mem_map.mp (each .fields)
  · intro all c e member
    cases body <;> cases c <;>
      simp only [TypeBody.entries, List.mem_map, List.not_mem_nil] at member <;>
      obtain ⟨x, listed, rfl⟩ := member
    · exact all.2 x listed
    · exact all.1 x listed
    all_goals exact all x listed

structure TypeNode.Formed (node : TypeNode) : Prop where
  name : IsName node.name
  entries : ∀ c, ∀ e ∈ node.entries c, e.Formed
  implements : ∀ n ∈ node.body.implements, IsName n

structure DirectiveDefinition.Formed (d : DirectiveDefinition) : Prop where
  name : IsName d.name
  arguments : ∀ v ∈ d.arguments, v.Formed 49

structure SchemaDefinition.Formed (s : SchemaDefinition) : Prop where
  directives : ∀ d ∈ s.directives, d.Formed 50
  query : ∀ n ∈ s.query, IsName n
  mutation : ∀ n ∈ s.mutation, IsName n
  subscription : ∀ n ∈ s.subscription, IsName n

def Definition.Formed : Definition → Prop
  | .schema s => s.Formed
  | .type _ node | .extension node => node.Formed
  | .directive d => d.Formed

def Document.Formed (doc : Document) : Prop := ∀ d ∈ doc.definitions, d.Formed

theorem Definition.formed_iff {d : Definition} {kind : Kind} (known : d.kind? = some kind) :
    d.Formed ↔ (∀ n ∈ d.name?, IsName n) ∧ (∀ c, ∀ e ∈ d.entries c, e.Formed) ∧
      ∀ n ∈ d.unfiled.2.2, IsName n := by
  have node : ∀ node : TypeNode, node.Formed ↔ (∀ n ∈ some node.name, IsName n) ∧
      (∀ c, ∀ e ∈ node.entries c, e.Formed) ∧ ∀ n ∈ node.body.implements, IsName n := by
    intro node
    constructor
    · rintro ⟨name, entries, implements⟩
      exact ⟨by simpa using name, entries, implements⟩
    · rintro ⟨name, entries, implements⟩
      exact ⟨by simpa using name, entries, implements⟩
  cases d with
  | schema s => cases known
  | type description n => exact node n
  | extension n => exact node n
  | directive definition =>
    constructor
    · rintro ⟨name, arguments⟩
      refine ⟨by simpa [name?] using name, ?_, by simp [unfiled]⟩
      intro c e member
      cases c <;> simp only [entries, List.mem_map, List.not_mem_nil] at member
      obtain ⟨v, inside, rfl⟩ := member
      exact arguments v inside
    · rintro ⟨name, each, _⟩
      exact ⟨name _ rfl, fun v member => each .arguments _ (List.mem_map_of_mem member)⟩

namespace TypeNode.Formed

variable {name : Name} {ds : List Directive} {body : TypeBody}

theorem directives (formed : (TypeNode.mk name ds body).Formed) : ∀ d ∈ ds, d.Formed 50 :=
  fun _ member => formed.entries .directives _ (List.mem_map_of_mem member)

theorem allEntries (formed : (TypeNode.mk name ds body).Formed) : body.AllEntries Entry.Formed := by
  apply TypeBody.forall_entries_iff.mp
  intro c e member
  by_cases own : c = .directives
  · subst own
    cases body <;> cases member
  · exact formed.entries c e (by rwa [TypeNode.entries_of_ne _ own])

theorem interfaces (formed : (TypeNode.mk name ds body).Formed) :
    ∀ n ∈ body.interfaces, IsName n := by
  cases body with
  | object names fields => exact formed.allEntries.1
  | interface names fields => exact formed.implements
  | _ => exact fun _ member => nomatch member

end TypeNode.Formed

section Pieces

theorem formed_mark (m : Mark) : (Piece.mark m).Formed := trivial

theorem formed_blank : Piece.blank.Formed := by simp [Piece.blank, Piece.Formed]

theorem formed_newline : Piece.newline.Formed := by simp [Piece.newline, Piece.Formed]

theorem formed_comma : Piece.comma.Formed := by simp [Piece.comma, Piece.Formed]

theorem formed_steps (indent : Nat) : (Piece.steps indent).Formed := fun _ member =>
  .inl (List.eq_of_mem_replicate member)

theorem formed_string (indent : Nat) (s : String) : (Piece.string indent s).Formed := trivial

attribute [simp] formed_mark formed_blank formed_newline formed_comma formed_steps formed_string

theorem formed_listed {members : List (List Piece)} :
    (∀ p ∈ joined [.comma] members, p.Formed) ↔ ∀ ps ∈ members, ∀ p ∈ ps, p.Formed :=
  forall_mem_joined (by simp)

theorem formed_inParens {members : List (List Piece)} :
    (∀ p ∈ inParens members, p.Formed) ↔ ∀ ps ∈ members, ∀ p ∈ ps, p.Formed :=
  forall_mem_inParens formed_mark formed_comma

theorem formed_inBraces {members : List (List Piece)} :
    (∀ p ∈ inBraces members, p.Formed) ↔ ∀ ps ∈ members, ∀ p ∈ ps, p.Formed :=
  forall_mem_inBraces formed_mark formed_blank formed_newline

@[simp] theorem formed_word {n : Name} : (Piece.word n).Formed ↔ IsName n := Iff.rfl

theorem formed_listing {lead : Piece} (first : lead.Formed) (mark : Mark) {names : List Name}
    (each : ∀ n ∈ names, IsName n) : ∀ p ∈ listing lead mark names, p.Formed :=
  forall_mem_listing first formed_mark formed_blank each

variable {room : Nat}

theorem formed_field {n : Name} (name : IsName n) {ps : List Piece} (value : ∀ p ∈ ps, p.Formed) :
    ∀ p ∈ .word n :: .mark .colon :: .blank :: ps, p.Formed := by
  simpa [name] using value

theorem Value.Formed.pieces {vars : Bool} {v : Value} (formed : v.Formed vars room) (indent : Nat) :
    ∀ p ∈ v.pieces indent, p.Formed := by
  induction formed with
  | var _ name => simp [Value.pieces, name]
  | int bounds => exact List.forall_mem_singleton.mpr bounds
  | float canonical => exact List.forall_mem_singleton.mpr canonical
  | string s => simp [Value.pieces]
  | boolean b => cases b <;> simp [Value.pieces] <;> decide
  | null => exact List.forall_mem_singleton.mpr (by decide : IsName "null")
  | enum name _ => exact List.forall_mem_singleton.mpr name
  | list each ih =>
    have inside := formed_listed.mpr (List.forall_mem_map.mpr ih)
    simpa [Value.pieces, itemPieces_eq, or_imp, forall_and] using inside
  | object sorted names each ih =>
    have inside := formed_listed.mpr (List.forall_mem_map.mpr fun f member =>
      formed_field (names f member) (ih f member))
    simpa [Value.pieces, fieldPieces_eq, or_imp, forall_and] using inside

theorem TypeRef.Formed.pieces {t : TypeRef} (formed : t.Formed room) :
    ∀ p ∈ t.pieces, p.Formed := by
  induction formed with
  | named name => exact List.forall_mem_singleton.mpr name
  | list inside ih => simpa [TypeRef.pieces, or_imp, forall_and] using ih
  | nonNull inside once ih => simpa [TypeRef.pieces, or_imp, forall_and] using ih

theorem Directive.Formed.pieces {d : Directive} (formed : d.Formed room) (indent : Nat) :
    ∀ p ∈ d.pieces indent, p.Formed := by
  have inside : ∀ p ∈ inParens (fieldPieces indent d.arguments), p.Formed := by
    rw [formed_inParens, fieldPieces_eq, List.forall_mem_map]
    intro a member
    obtain ⟨_, name, value⟩ := formed.arguments a member
    exact formed_field name (value.pieces indent)
  simpa [Directive.pieces, formed.name] using inside

theorem formed_directivePieces {ds : List Directive} (each : ∀ d ∈ ds, d.Formed room)
    (indent : Nat) :
    ∀ p ∈ directivePieces indent ds, p.Formed := by
  intro p member
  obtain ⟨d, listed, inside⟩ := List.mem_flatMap.mp member
  rcases List.mem_cons.mp inside with rfl | inside
  · exact formed_blank
  · exact (each d listed).pieces indent p inside

theorem formed_inlineDescription (indent : Nat) (description : Option String) :
    ∀ p ∈ inlineDescription indent description, p.Formed := by
  cases description <;> simp [inlineDescription]

theorem formed_descriptionLines (indent : Nat) (description : Option String) :
    ∀ p ∈ descriptionLines indent description, p.Formed := by
  cases description <;> simp [descriptionLines]

theorem InputValue.Formed.pieces {v : InputValue} (formed : v.Formed room) (indent : Nat) :
    ∀ p ∈ v.pieces indent, p.Formed := by
  have description := formed_inlineDescription indent v.description
  have directives := formed_directivePieces formed.directives indent
  have type := formed.type.pieces
  have default : ∀ p ∈ defaultPieces indent v.default, p.Formed := by
    cases known : v.default with
    | none => exact fun _ member => nomatch member
    | some d => simpa [defaultPieces] using (formed.default d known).pieces indent
  simp_all [InputValue.pieces, or_imp, formed.name]

theorem formed_arguments {vs : List InputValue} (each : ∀ v ∈ vs, v.Formed room) (indent : Nat) :
    ∀ p ∈ inParens (vs.map (·.pieces indent)), p.Formed :=
  formed_inParens.mpr (List.forall_mem_map.mpr fun v member => (each v member).pieces indent)

theorem Field.Formed.pieces {f : Field} (formed : f.Formed room) (indent : Nat) :
    ∀ p ∈ f.pieces indent, p.Formed := by
  have description := formed_descriptionLines indent f.description
  have arguments := formed_arguments (fun v member => (formed.arguments v member).2) indent
  have type := formed.type.pieces
  have directives := formed_directivePieces formed.directives indent
  simp_all [Field.pieces, or_imp, formed.name]

theorem InputValue.Formed.line {v : InputValue} (formed : v.Formed room) (indent : Nat) :
    ∀ p ∈ v.line indent, p.Formed := by
  simpa [InputValue.line, or_imp, forall_and] using formed.pieces indent

theorem EnumValue.Formed.pieces {v : EnumValue} (formed : v.Formed room) (indent : Nat) :
    ∀ p ∈ v.pieces indent, p.Formed := by
  have description := formed_inlineDescription indent v.description
  have directives := formed_directivePieces formed.directives indent
  simp_all [EnumValue.pieces, or_imp, formed.name]

theorem TypeNode.Formed.body_pieces {node : TypeNode} (formed : node.Formed) :
    ∀ p ∈ node.body.pieces, p.Formed := by
  obtain ⟨name, ds, body⟩ := node
  have all := formed.allEntries
  cases body with
  | scalar => exact fun _ member => nomatch member
  | object interfaces fields =>
    apply formed_inBraces.mpr
    exact List.forall_mem_map.mpr fun f member => (all.2 f member).pieces 2
  | interface implements fields =>
    apply formed_inBraces.mpr
    exact List.forall_mem_map.mpr fun f member => (all f member).pieces 2
  | union members => exact formed_listing (formed_mark _) _ all
  | enum values =>
    apply formed_inBraces.mpr
    exact List.forall_mem_map.mpr fun v member => (all v member).pieces 2
  | inputObject fields =>
    apply formed_inBraces.mpr
    exact List.forall_mem_map.mpr fun v member => (all v member).line 2

theorem TypeNode.Formed.pieces {node : TypeNode} (formed : node.Formed) :
    ∀ p ∈ node.pieces, p.Formed := by
  have keyword : IsName node.keyword := by
    unfold keyword
    cases node.body <;> dsimp only <;> decide
  have interfaces := formed_listing (formed_word.mpr (by decide : IsName "implements")) .ampersand
    formed.interfaces
  have directives := formed_directivePieces formed.directives 0
  have body := formed.body_pieces
  simp_all [TypeNode.pieces, or_imp, formed.name]

theorem DirectiveDefinition.Formed.pieces {d : DirectiveDefinition} (formed : d.Formed) :
    ∀ p ∈ d.pieces, p.Formed := by
  have description := formed_descriptionLines 0 d.description
  have arguments := formed_arguments formed.arguments 0
  have words : ∀ n ∈ d.locations.map (·.word), IsName n := by
    rw [List.forall_mem_map]
    intro l _
    cases l <;> decide
  have locations := formed_listing (formed_word.mpr (by decide : IsName "on")) .pipe words
  have keyword : IsName "directive" := by decide
  have again : IsName "repeatable" := by decide
  cases repeatable : d.repeatable <;>
    simp_all [DirectiveDefinition.pieces, or_imp, formed.name]

theorem SchemaDefinition.Formed.pieces {s : SchemaDefinition} (formed : s.Formed) :
    ∀ p ∈ s.pieces, p.Formed := by
  have root : ∀ operation type, IsName operation → (∀ n ∈ type, IsName n) →
      ∀ p ∈ rootPieces operation type, p.Formed := by
    intro operation type name each
    cases type with
    | none => exact fun _ member => nomatch member
    | some n => simp [rootPieces, name, each n rfl]
  have query := root "query" s.query (by decide) formed.query
  have mutation := root "mutation" s.mutation (by decide) formed.mutation
  have subscription := root "subscription" s.subscription (by decide) formed.subscription
  have directives := formed_directivePieces formed.directives 0
  have keyword : IsName "schema" := by decide
  simp_all [SchemaDefinition.pieces, or_imp]

theorem Definition.Formed.pieces {d : Definition} (formed : d.Formed) :
    ∀ p ∈ d.pieces, p.Formed := by
  cases d with
  | schema s => exact SchemaDefinition.Formed.pieces formed
  | type description node =>
    have above := formed_descriptionLines 0 description
    have below := TypeNode.Formed.pieces formed
    simp_all [Definition.pieces, or_imp]
  | extension node =>
    have below := TypeNode.Formed.pieces formed
    have keyword : IsName "extend" := by decide
    simp_all [Definition.pieces]
  | directive d => exact DirectiveDefinition.Formed.pieces formed

theorem Document.Formed.pieces {doc : Document} (formed : doc.Formed) :
    ∀ p ∈ doc.pieces, p.Formed :=
  (forall_mem_joined (by simp)).mpr
    (List.forall_mem_map.mpr fun d member => (formed d member).pieces)

end Pieces

end SchemaOverlay.Sdl

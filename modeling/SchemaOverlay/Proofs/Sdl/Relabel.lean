import Mathlib.Data.List.Basic
import SchemaOverlay.Sdl.Use

/-!
A document in which another directive stands in the place of each: what it declares is the same, and
the walk over it meets the other directives in the same places.
-/
namespace SchemaOverlay.Sdl

section Relabel

variable (f : Directive → Directive)

def InputValue.relabel (v : InputValue) : InputValue :=
  { v with directives := v.directives.map f }

def EnumValue.relabel (v : EnumValue) : EnumValue :=
  { v with directives := v.directives.map f }

def Field.relabel (field : Field) : Field :=
  { field with
    arguments := field.arguments.map (·.relabel f)
    directives := field.directives.map f }

def TypeBody.relabel : TypeBody → TypeBody
  | .object interfaces fields => .object interfaces (fields.map (·.relabel f))
  | .interface implements fields => .interface implements (fields.map (·.relabel f))
  | .enum values => .enum (values.map (·.relabel f))
  | .inputObject fields => .inputObject (fields.map (·.relabel f))
  | .scalar => .scalar
  | .union members => .union members

def TypeNode.relabel (node : TypeNode) : TypeNode :=
  { node with directives := node.directives.map f, body := node.body.relabel f }

def Definition.relabel : Definition → Definition
  | .schema s => .schema { s with directives := s.directives.map f }
  | .type description node => .type description (node.relabel f)
  | .extension node => .extension (node.relabel f)
  | .directive d => .directive { d with arguments := d.arguments.map (·.relabel f) }

def Document.relabel (doc : Document) : Document := ⟨doc.definitions.map (·.relabel f)⟩

def Site.relabel : Site → Site
  | .definition d => .definition (d.relabel f)
  | .field d below => .field (d.relabel f) (below.relabel f)
  | .argument d below v => .argument (d.relabel f) (below.relabel f) (v.relabel f)
  | .inputValue d v => .inputValue (d.relabel f) (v.relabel f)
  | .enumValue d v => .enumValue (d.relabel f) (v.relabel f)

def Use.relabel (u : Use) : Use := ⟨f u.directive, u.index, u.site.relabel f⟩

theorem Site.directives_relabel (s : Site) : (s.relabel f).directives = s.directives.map f := by
  cases s with
  | definition d => cases d <;> rfl
  | _ => rfl

theorem Site.uses_relabel (s : Site) : (s.relabel f).uses = s.uses.map (Use.relabel f) := by
  rw [uses, uses, directives_relabel, List.zipIdx_map, List.map_map, List.map_map]
  rfl

theorem TypeBody.sites_relabel (d : Definition) (body : TypeBody) :
    (body.relabel f).sites (d.relabel f) = (body.sites d).map (Site.relabel f) := by
  have fields : ∀ fs : List Field,
      ((fs.map (·.relabel f)).flatMap fun x =>
        x.arguments.map (.argument (d.relabel f) x) ++ [.field (d.relabel f) x]) =
      (fs.flatMap fun x => x.arguments.map (.argument d x) ++ [.field d x]).map
        (Site.relabel f) := by
    intro fs
    rw [List.flatMap_map, List.map_flatMap]
    refine List.flatMap_congr fun x _ => ?_
    rw [List.map_append, List.map_map, Field.relabel, List.map_map]
    rfl
  cases body with
  | scalar => rfl
  | union members => rfl
  | object interfaces fs => exact fields fs
  | interface implements fs => exact fields fs
  | enum values =>
    rw [relabel, sites, sites, List.map_map, List.map_map]
    rfl
  | inputObject values =>
    rw [relabel, sites, sites, List.map_map, List.map_map]
    rfl

theorem Definition.sites_relabel (d : Definition) :
    (d.relabel f).sites = d.sites.map (Site.relabel f) := by
  cases d with
  | schema s => rfl
  | type description node =>
    exact congrArg (List.cons _) (TypeBody.sites_relabel f (.type description node) node.body)
  | extension node =>
    exact congrArg (List.cons _) (TypeBody.sites_relabel f (.extension node) node.body)
  | directive definition =>
    rw [relabel, sites, sites, List.map_map, List.map_cons, List.map_map]
    rfl

theorem Document.uses_relabel (doc : Document) :
    (doc.relabel f).uses = doc.uses.map (Use.relabel f) := by
  rw [uses, uses, relabel, List.flatMap_map, List.map_flatMap]
  refine List.flatMap_congr fun d _ => ?_
  rw [Definition.sites_relabel, List.flatMap_map, List.map_flatMap]
  exact List.flatMap_congr fun s _ => Site.uses_relabel f s

theorem Definition.kind?_relabel (d : Definition) : (d.relabel f).kind? = d.kind? := by
  have form : ∀ body : TypeBody, (body.relabel f).form = body.form := by
    intro body
    cases body <;> rfl
  cases d <;> simp [relabel, kind?, TypeNode.relabel, form]

theorem Definition.name?_relabel (d : Definition) : (d.relabel f).name? = d.name? := by
  cases d <;> rfl

end Relabel

end SchemaOverlay.Sdl

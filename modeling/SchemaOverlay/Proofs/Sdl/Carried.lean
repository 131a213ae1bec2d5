import Mathlib.Data.List.Basic
import SchemaOverlay.Sdl.Entry
import SchemaOverlay.Sdl.Use

/-!
The directives that a definition carries, on itself and below, are those of its entries: nothing
that carries a directive is in no collection. Only a schema definition, which has no entries, carries
directives of its own.
-/
namespace SchemaOverlay.Sdl

/-- The directives that an entry is or carries, those on the arguments of a field included. -/
def Entry.carried : Entry → List Directive
  | .directive use => [use]
  | .field f => f.arguments.flatMap (·.directives) ++ f.directives
  | .inputValue v => v.directives
  | .enumValue v => v.directives
  | .namedType _ => []

def Definition.carried (d : Definition) : List Directive := d.sites.flatMap Site.directives

theorem TypeBody.carried_sites (d : Definition) (body : TypeBody) :
    (body.sites d).flatMap Site.directives =
      Collection.all.flatMap fun c => (body.entries c).flatMap Entry.carried := by
  have fields : ∀ fs : List Field,
      (fs.flatMap fun f => f.arguments.map (.argument d f) ++ [.field d f]).flatMap
        Site.directives = (fs.map Entry.field).flatMap Entry.carried := by
    intro fs
    rw [List.flatMap_assoc, List.flatMap_map]
    refine List.flatMap_congr fun f _ => ?_
    rw [List.flatMap_append, List.flatMap_map]
    simp [Site.directives, Entry.carried]
  have named : ∀ ns : List Name, (ns.map Entry.namedType).flatMap Entry.carried = [] := by
    intro ns
    refine List.flatMap_eq_nil_iff.mpr fun e member => ?_
    obtain ⟨n, _, rfl⟩ := List.mem_map.mp member
    rfl
  cases body with
  | scalar => rfl
  | union members => simp [sites, entries, Collection.all, named]
  | object interfaces fs => simp only [sites, fields]; simp [entries, Collection.all, named]
  | interface implements fs => simp only [sites, fields]; simp [entries, Collection.all]
  | enum values =>
    simp [sites, entries, Collection.all, List.flatMap_map, Site.directives, Entry.carried]
  | inputObject values =>
    simp [sites, entries, Collection.all, List.flatMap_map, Site.directives, Entry.carried]

theorem Definition.carried_eq {d : Definition} {kind : Kind} (known : d.kind? = some kind) :
    d.carried = Collection.all.flatMap fun c => (d.entries c).flatMap Entry.carried := by
  have node : ∀ node : TypeNode, node.directives ++ (node.body.sites d).flatMap Site.directives =
      Collection.all.flatMap fun c => (node.entries c).flatMap Entry.carried := by
    intro node
    rw [TypeBody.carried_sites]
    have own : (node.directives.map Entry.directive).flatMap Entry.carried = node.directives := by
      rw [List.flatMap_map]
      exact List.flatMap_singleton' node.directives
    have none : node.body.entries .directives = [] ∧ node.body.entries .arguments = [] := by
      cases node.body <;> exact ⟨rfl, rfl⟩
    simp [Collection.all, TypeNode.entries, own, none]
  cases d with
  | schema s => cases known
  | type description below => exact node below
  | extension below => exact node below
  | directive definition =>
    simp [carried, sites, entries, Collection.all, List.flatMap_map, Site.directives,
      Definition.directives, Entry.carried]

theorem Collection.mem_all (c : Collection) : c ∈ Collection.all := by
  cases c <;> decide

theorem Definition.mem_carried_iff {d : Definition} {kind : Kind} (known : d.kind? = some kind)
    {use : Directive} : use ∈ d.carried ↔ ∃ c, ∃ e ∈ d.entries c, use ∈ e.carried := by
  rw [carried_eq known]
  simp only [List.mem_flatMap]
  constructor
  · rintro ⟨c, _, found⟩
    exact ⟨c, found⟩
  · rintro ⟨c, found⟩
    exact ⟨c, c.mem_all, found⟩

theorem Definition.mem_carried_of_entry {d : Definition} {c : Collection} {e : Entry}
    {use : Directive} (listed : e ∈ d.entries c) (inside : use ∈ e.carried) : use ∈ d.carried := by
  cases known : d.kind? with
  | some kind => exact (mem_carried_iff known).mpr ⟨c, e, listed, inside⟩
  | none =>
    cases d with
    | schema s => cases listed
    | _ => cases known

theorem Document.map_directive_uses (doc : Document) :
    doc.uses.map Use.directive = doc.definitions.flatMap Definition.carried := by
  have site : ∀ s : Site, s.uses.map Use.directive = s.directives := by
    intro s
    simp [Site.uses, Function.comp_def]
  rw [uses, List.map_flatMap]
  refine List.flatMap_congr fun d _ => ?_
  rw [List.map_flatMap, Definition.carried]
  exact List.flatMap_congr fun s _ => site s

end SchemaOverlay.Sdl

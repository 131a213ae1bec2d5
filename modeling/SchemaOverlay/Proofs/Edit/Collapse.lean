import SchemaOverlay.Proofs.Edit.Export
import SchemaOverlay.Proofs.Overlay.Instruction

/-!
What a definition loses when it is opened and exported. Entries are filed by name, so of several
with one name the last is left, in the place of the first. Directives are filed like other entries,
though a directive may be used more than once on one node.
-/
namespace SchemaOverlay

open Sdl

section Latest

variable {α β : Type} (name : α → Name)

/-- Each name once, in the place where it comes first, and with the last of what has the name. -/
def latest (l : List α) : List α :=
  (l.map name).eraseDups.filterMap fun n => (l.filter (name · = n)).getLast?

theorem values_ofList_named (l : List α) :
    (Keyed.ofList (l.map fun a => (name a, a))).values = latest name l := by
  rw [Keyed.values_eq_filterMap (Keyed.Distinct.ofList _), Keyed.keys_ofList, List.map_map]
  refine List.filterMap_congr fun n _ => ?_
  rw [Keyed.get?_ofList, List.filter_map, List.getLast?_map, Option.map_map]
  exact Option.map_id_apply

theorem nodup_latest (l : List α) : ((latest name l).map name).Nodup := by
  have distinct := Keyed.Distinct.ofList (l.map fun a => (name a, a))
  rw [← values_ofList_named, Keyed.values, List.map_map]
  -- What is filed under a name has that name.
  have keys : (Keyed.ofList (l.map fun a => (name a, a))).pairs.map (name ∘ (·.2)) =
      (Keyed.ofList (l.map fun a => (name a, a))).keys := by
    refine List.map_congr_left fun p member => ?_
    obtain ⟨a, _, rfl⟩ := List.mem_map.mp (Keyed.mem_pairs_ofList member)
    rfl
  rw [keys]
  exact distinct

theorem latest_eq_self_iff {l : List α} : latest name l = l ↔ (l.map name).Nodup := by
  constructor
  · intro same
    have names := nodup_latest name l
    rwa [same] at names
  · intro distinct
    have keys : ((l.map fun a => (name a, a)).map (·.1)).Nodup := by
      simpa [Function.comp_def] using distinct
    rw [← values_ofList_named, Keyed.ofList_pairs _ keys]
    simp [Keyed.values, Function.comp_def]

theorem latest_map (name : β → Name) (f : α → β) (l : List α) :
    latest name (l.map f) = (latest (fun a => name (f a)) l).map f := by
  simp only [latest, List.map_map, List.map_filterMap, List.filter_map, List.getLast?_map]
  rfl

end Latest

theorem Sdl.TypeForm.directives_mem_collections (form : TypeForm) :
    .directives ∈ form.collections := by
  cases form <;> decide

namespace Sdl.Definition

variable {d : Definition} {kind : Kind}

/-- The definition with the last use of each directive it carries, in the place of the first. -/
def withLatestDirectives (d : Definition) : Definition :=
  d.withDirectives (latest Directive.name d.directives)

theorem withLatestDirectives_eq_self_iff (known : d.kind? = some kind) :
    d.withLatestDirectives = d ↔ (d.directives.map Directive.name).Nodup := by
  rw [← latest_eq_self_iff]
  cases d with
  | schema s => cases known
  | type description node =>
    obtain ⟨name, uses, body⟩ := node
    simp [withLatestDirectives, withDirectives, directives]
  | extension node =>
    obtain ⟨name, uses, body⟩ := node
    simp [withLatestDirectives, withDirectives, directives]
  | directive definition =>
    exact ⟨fun _ => rfl, fun _ => rfl⟩

theorem entries_withDirectives_of_ne (d : Definition) (uses : List Directive) {c : Collection}
    (other : c ≠ .directives) : (d.withDirectives uses).entries c = d.entries c := by
  cases d <;> cases c <;> first | rfl | exact absurd rfl other

theorem entries_directives (type : d.isType = true) :
    d.entries .directives = d.directives.map .directive := by
  cases d <;> first | rfl | cases type

theorem withDirectives_eq (type : d.isType = true) (uses : List Directive) :
    d.withDirectives uses = d.withEntries .directives (uses.map .directive) := by
  have kept : (uses.map Entry.directive).filterMap Entry.directive? = uses :=
    filterMap_map_eq Entry.directive Entry.directive? (fun _ => rfl) uses
  cases d with
  | schema s => cases type
  | directive definition => cases type
  | _ => simp only [withDirectives, withEntries, TypeNode.withEntries, kept]

theorem directives_mem_collections (type : d.isType = true) (known : d.kind? = some kind) :
    .directives ∈ kind.collections := by
  cases d with
  | schema s => cases type
  | directive definition => cases type
  | _ =>
    cases known
    exact TypeForm.directives_mem_collections _

end Sdl.Definition

namespace Draft

variable {kind : Kind} {name : Name} {node : Definition}

theorem values_fileEntries_directives (uses : List Directive) :
    (fileEntries (uses.map .directive)).values = (latest Directive.name uses).map .directive := by
  rw [fileEntries, values_ofList_named, latest_map]
  rfl

theorem toDefinition_opened_latest (known : node.kind? = some kind)
    (named : node.name? = some name)
    (distinct : ∀ c, c ≠ .directives → ((node.entries c).map Entry.name).Nodup) :
    (opened kind name node).toDefinition = node.withLatestDirectives := by
  by_cases type : node.isType = true
  · have filed : ∀ c ∈ kind.collections,
        (fileEntries (node.entries c)).values = node.withLatestDirectives.entries c := by
      intro c _
      by_cases own : c = .directives
      · subst own
        rw [Definition.entries_directives type, values_fileEntries_directives]
        cases node <;> first | rfl | cases type
      · rw [values_fileEntries (distinct c own), Definition.withLatestDirectives,
          Definition.entries_withDirectives_of_ne node _ own]
    rw [toDefinition_opened_eq known named]
    calc node.refill kind.collections (fun c => (fileEntries (node.entries c)).values)
        = node.withLatestDirectives.refill kind.collections
            (fun c => (fileEntries (node.entries c)).values) := by
          rw [Definition.withLatestDirectives, Definition.withDirectives_eq type]
          exact (Definition.refill_withEntries_of_mem node _
            (Definition.directives_mem_collections type known)).symm
      _ = node.withLatestDirectives := Definition.refill_entries filed
  · cases node with
    | schema s => cases known
    | directive definition =>
      refine toDefinition_opened known named fun c => ?_
      by_cases own : c = .directives
      · subst own
        exact List.nodup_nil
      · exact distinct c own
    | _ => exact absurd rfl type

end Draft

end SchemaOverlay

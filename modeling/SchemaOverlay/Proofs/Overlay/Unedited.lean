import SchemaOverlay.Proofs.Edit.Collapse
import SchemaOverlay.Proofs.Edit.Loading
import SchemaOverlay.Proofs.Overlay.Classification
import SchemaOverlay.Proofs.Overlay.Schedule
import SchemaOverlay.Proofs.Sdl.Carried

/-!
What overrides without any instruction make of a schema. They edit nothing, but the schema is opened
and exported: its definitions are sorted by registry, and each is left with the last use of each
directive it carries.
-/
namespace SchemaOverlay

open Sdl

namespace Sdl

def Definition.home? (d : Definition) : Option Registry := d.kind?.map Kind.registry

theorem Definition.exists_name {d : Definition} {kind : Kind} (known : d.kind? = some kind) :
    ∃ name, d.name? = some name := by
  cases d with
  | schema s => cases known
  | _ => exact ⟨_, rfl⟩

/-- The definitions can be opened, no two of them in one place, and of the entries of a definition
only directives share a name. -/
structure Document.Tidy (doc : Document) : Prop where
  known : ∀ d ∈ doc.definitions, d.kind?.isSome = true
  apart : (doc.definitions.map fun d => (d.home?, d.name?)).Nodup
  distinct : ∀ d ∈ doc.definitions, ∀ c ∈ Collection.all, c ≠ .directives →
    ((d.entries c).map Entry.name).Nodup

theorem Document.Tidy.kind {doc : Document} (tidy : doc.Tidy) {d : Definition}
    (listed : d ∈ doc.definitions) : ∃ kind, d.kind? = some kind :=
  Option.isSome_iff_exists.mp (tidy.known d listed)

/-- The definitions registry by registry, in their order within each. -/
def regrouped (ds : List Definition) : List Definition :=
  Registry.all.flatMap fun r => ds.filter (·.home? = some r)

theorem mem_regrouped {ds : List Definition} {d : Definition} {kind : Kind}
    (known : d.kind? = some kind) : d ∈ regrouped ds ↔ d ∈ ds := by
  simp only [regrouped, List.mem_flatMap, List.mem_filter, decide_eq_true_eq]
  constructor
  · rintro ⟨r, _, listed, _⟩
    exact listed
  · intro listed
    refine ⟨kind.registry, ?_, listed, by rw [Definition.home?, known, Option.map_some]⟩
    cases kind <;> simp [Kind.registry, Registry.all]

end Sdl

def Draft.openedAs (d : Definition) : Draft :=
  .opened (d.kind?.getD .directive) (d.name?.getD "") d

section Open

variable {d : Definition} {kind : Kind}

theorem Draft.ofDefinition_openedAs (known : d.kind? = some kind) :
    ofDefinition d = .ok (openedAs d) := by
  obtain ⟨name, named⟩ := Definition.exists_name known
  rw [ofDefinition_eq known named, openedAs, known, named]
  rfl

theorem Draft.home_openedAs (known : d.kind? = some kind) :
    d.home? = some (openedAs d).registry := by
  rw [Definition.home?, Draft.registry, openedAs, known]
  rfl

theorem Draft.name_openedAs (known : d.kind? = some kind) : d.name? = some (openedAs d).name := by
  obtain ⟨name, named⟩ := Definition.exists_name known
  rw [openedAs, named]
  rfl

theorem Draft.toDefinition_openedAs (known : d.kind? = some kind)
    (distinct : ∀ c, c ≠ .directives → ((d.entries c).map Entry.name).Nodup) :
    (openedAs d).toDefinition = d.withLatestDirectives := by
  obtain ⟨name, named⟩ := Definition.exists_name known
  rw [openedAs, known, named]
  exact toDefinition_opened_latest known named distinct

end Open

namespace Catalog

variable {schema : Document} (tidy : schema.Tidy)

include tidy

theorem places_openedAs : ((schema.definitions.map Draft.openedAs).map Draft.place).Nodup := by
  have places : (schema.definitions.map fun d => (d.home?, d.name?)) =
      ((schema.definitions.map Draft.openedAs).map Draft.place).map
        fun p => (some p.1, some p.2) := by
    rw [List.map_map, List.map_map]
    refine List.map_congr_left fun d listed => ?_
    obtain ⟨kind, is⟩ := tidy.kind listed
    rw [Draft.home_openedAs is, Draft.name_openedAs is]
    rfl
  have apart := tidy.apart
  rw [places] at apart
  exact apart.of_map

theorem ofDocument_openedAs :
    ofDocument schema = .ok (fileAll (schema.definitions.map Draft.openedAs)) := by
  have opens : schema.definitions.map Draft.ofDefinition =
      (schema.definitions.map Draft.openedAs).map .ok := by
    rw [List.map_map]
    refine List.map_congr_left fun d listed => ?_
    obtain ⟨kind, is⟩ := tidy.kind listed
    exact Draft.ofDefinition_openedAs is
  exact ofDocument_of_apart opens (places_openedAs tidy)

theorem toDocument_openedAs :
    (fileAll (schema.definitions.map Draft.openedAs)).toDocument.definitions =
      (regrouped schema.definitions).map Definition.withLatestDirectives := by
  have group : ∀ r, ((fileAll (schema.definitions.map Draft.openedAs)).registry r).values.map
      Draft.toDefinition =
        (schema.definitions.filter (·.home? = some r)).map
          Definition.withLatestDirectives := by
    intro r
    rw [Keyed.values, pairs_fileAll (places_openedAs tidy), List.filter_map, List.map_map,
      List.map_map, List.map_map]
    have same : schema.definitions.filter ((fun d => decide (d.registry = r)) ∘ Draft.openedAs) =
        schema.definitions.filter (·.home? = some r) := by
      refine List.filter_congr fun d listed => ?_
      obtain ⟨kind, is⟩ := tidy.kind listed
      simp [Draft.home_openedAs is]
    rw [same]
    refine List.map_congr_left fun d member => ?_
    have listed := (List.mem_filter.mp member).1
    obtain ⟨kind, is⟩ := tidy.kind listed
    exact Draft.toDefinition_openedAs is fun c => tidy.distinct d listed c c.mem_all
  rw [definitions_toDocument, drafts, List.map_flatMap, regrouped, List.map_flatMap]
  exact List.flatMap_congr fun r _ => group r

end Catalog

namespace Plan

theorem ofDocument_of_plain {overrides : Document}
    (plain : ∀ u ∈ overrides.uses, u.directive.isAction = false) :
    ofDocument overrides = .ok empty := by
  have none : overrides.instructions = [] := by
    rw [Document.instructions, List.filterMap_eq_nil_iff]
    intro u used
    have named := plain u used
    rw [Directive.isAction, Option.isSome_eq_false_iff, Option.isNone_iff_eq_none] at named
    rw [Use.instruction?, named, Option.map_none]
  rw [ofDocument_eq, none]
  rfl

/-- Overrides without an instruction give an empty plan, which leaves the catalog alone. What is
exported are the definitions sorted by registry, each with the last use of each directive that it
carries; so they are unchanged exactly if none of them uses a directive twice. -/
theorem outcome_of_plain {schema overrides : Document}
    (plain : ∀ u ∈ overrides.uses, u.directive.isAction = false) (tidy : schema.Tidy) :
    ∃ p cat cat', ofDocument overrides = .ok p ∧ p.isEmpty = true ∧
      Catalog.ofDocument schema = .ok cat ∧ p.outcome cat = .ok cat' ∧
      cat'.toDocument.definitions =
        (regrouped schema.definitions).map Definition.withLatestDirectives ∧
      (cat'.toDocument.definitions = regrouped schema.definitions ↔
        ∀ d ∈ schema.definitions, (d.directives.map Directive.name).Nodup) := by
  have loaded := Catalog.ofDocument_openedAs tidy
  have exported := Catalog.toDocument_openedAs tidy
  have idle : empty.outcome (.fileAll (schema.definitions.map Draft.openedAs)) =
      .ok (.fileAll (schema.definitions.map Draft.openedAs)) := rfl
  refine ⟨empty, _, _, ofDocument_of_plain plain, rfl, loaded, idle, exported, ?_⟩
  rw [exported]
  have fixed : (regrouped schema.definitions).map Definition.withLatestDirectives =
      regrouped schema.definitions ↔
        ∀ d ∈ regrouped schema.definitions, d.withLatestDirectives = d := by
    conv_lhs => rhs; rw [← List.map_id (regrouped schema.definitions)]
    exact List.map_inj_left
  rw [fixed]
  constructor
  · intro same d listed
    obtain ⟨kind, is⟩ := tidy.kind listed
    exact (Definition.withLatestDirectives_eq_self_iff is).mp
      (same d ((mem_regrouped is).mpr listed))
  · intro once d listed
    obtain ⟨r, _, inside⟩ := List.mem_flatMap.mp listed
    have given := (List.mem_filter.mp inside).1
    obtain ⟨kind, is⟩ := tidy.kind given
    exact (Definition.withLatestDirectives_eq_self_iff is).mpr (once d given)

def keyed (field : Name) : Directive := ⟨"key", [("fields", .string field)]⟩

def scattered : Document := ⟨[
  .extension ⟨"User", [keyed "id"], .object ["Node"] [stringField "name" ["deprecated"]]⟩,
  .type none ⟨"User", [keyed "id", ⟨"cached", []⟩], .object [] [stringField "id" []]⟩,
  .directive ⟨none, "key", [⟨none, "fields", .named "String", none, []⟩], true, [.object]⟩]⟩

def plainScalar : Document := ⟨[.type none ⟨"Plain", [⟨"cached", []⟩], .scalar⟩]⟩

theorem outcome_of_plain_scattered :
    ∃ p cat cat', ofDocument plainScalar = .ok p ∧ Catalog.ofDocument scattered = .ok cat ∧
      p.outcome cat = .ok cat' ∧ cat'.toDocument.definitions = scattered.definitions.reverse := by
  have plain : ∀ u ∈ plainScalar.uses, u.directive.isAction = false := by decide
  have tidy : scattered.Tidy := ⟨by decide, by decide, by decide⟩
  have once : ∀ d ∈ scattered.definitions, (d.directives.map Directive.name).Nodup := by decide
  obtain ⟨p, cat, cat', planned, _, loaded, ran, _, same⟩ :=
    outcome_of_plain plain tidy
  exact ⟨p, cat, cat', planned, loaded, ran, same.mpr once⟩

def twiceKeyed : Document := ⟨[
  .type none ⟨"User", [keyed "id", keyed "email"], .object [] [stringField "id" []]⟩]⟩

/-- The first key is lost, though no edit is about it. -/
theorem outcome_of_plain_twiceKeyed :
    (∀ u ∈ plainScalar.uses, u.directive.isAction = false) ∧ twiceKeyed.Tidy ∧
    ∃ p cat cat', ofDocument plainScalar = .ok p ∧ Catalog.ofDocument twiceKeyed = .ok cat ∧
      p.outcome cat = .ok cat' ∧
      cat'.toDocument.definitions =
        [.type none ⟨"User", [keyed "email"], .object [] [stringField "id" []]⟩] ∧
      cat'.toDocument.definitions ≠ regrouped twiceKeyed.definitions := by
  refine ⟨by decide, ⟨by decide, by decide, by decide⟩, _, _, _, rfl, rfl, rfl, rfl, fun same => ?_⟩
  have counts := congrArg (List.map fun d => d.directives.length) same
  exact absurd counts (by decide)

end Plan

end SchemaOverlay

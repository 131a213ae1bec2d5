import SchemaOverlay.Overlay.Merge
import SchemaOverlay.Proofs.Overlay.Normal

/-!
What a merge of two texts answers once every edit has been made. If the edited catalog has no text
that is read again, the first empty extension is to blame, whatever else is wrong; if there is none,
the catalog itself is.
-/
namespace SchemaOverlay

open Sdl

theorem Plan.applyTo_of_outcome {p : Plan} {cat cat' : Catalog} (ran : p.outcome cat = .ok cat') :
    (p.applyTo cat).1 = .ok ⟨⟩ ∧ (p.applyTo cat).2.catalog = cat' := by
  cases done : (p.applyTo cat).1 with
  | error e => simp [outcome, done, Except.map] at ran
  | ok u =>
    have same : (p.applyTo cat).2.catalog = cat' := by
      simpa [outcome, done, Except.map] using ran
    exact ⟨rfl, same⟩

/-- The merge of two texts makes every edit, and the edits lead to the catalog. -/
structure MergesTo (schemaText overridesText : String) (schema overrides : Document)
    (cat : Catalog) : Prop where
  schemaRead : Document.parse schemaText = .ok schema
  overridesRead : Document.parse overridesText = .ok overrides
  edits : ∃ p loaded, Plan.ofDocument overrides = .ok p ∧
    Catalog.ofDocument schema = .ok loaded ∧ p.outcome loaded = .ok cat

namespace MergesTo

variable {schemaText overridesText : String} {schema overrides : Document} {cat : Catalog}
  (merges : MergesTo schemaText overridesText schema overrides cat)

include merges

theorem edited : cat.Edited := by
  obtain ⟨p, loaded, planned, opened, ran⟩ := merges.edits
  obtain ⟨_, same⟩ := Plan.applyTo_of_outcome ran
  rw [← same]
  exact .applied merges.overridesRead planned (.loaded merges.schemaRead opened)

theorem outcome_eq : (merge schema overrides).outcome = cat.finish := by
  obtain ⟨p, loaded, planned, opened, ran⟩ := merges.edits
  obtain ⟨done, same⟩ := Plan.applyTo_of_outcome ran
  simp only [merge, planned, Plan.merge, opened, done, same]

theorem outcome_of_readable (readable : cat.toDocument.IsReadable) :
    (merge schema overrides).outcome = .ok cat.toDocument.reread := by
  have read : cat.normalize = .ok cat.toDocument.reread :=
    (Document.parse_print merges.edited.formed).1 readable
  rw [merges.outcome_eq, Catalog.finish, read]

theorem outcome_of_unreadable (unreadable : ¬ cat.toDocument.IsReadable) :
    ∃ e, (merge schema overrides).outcome = .error (match cat.emptyExtensions with
      | draft :: _ => .emptyExtension draft.kind draft.name
      | [] => .notNormal e) := by
  obtain ⟨e, refused⟩ := (Document.parse_print merges.edited.formed).2 unreadable
  have failed : cat.normalize = .error e := refused
  refine ⟨e, ?_⟩
  rw [merges.outcome_eq, Catalog.finish, failed]
  cases cat.emptyExtensions <;> rfl

end MergesTo

section Answers

variable {schemaText overridesText : String} {schema overrides : Document} {cat : Catalog}

/-- A merge that leaves an extension empty is refused, and the refusal names the first extension
that is empty, in the order in which the catalog is written. -/
theorem merge_blames_emptyExtension
    (merges : MergesTo schemaText overridesText schema overrides cat) {draft : Draft}
    (first : cat.drafts.find? Draft.isEmptyExtension = some draft) :
    (merge schema overrides).outcome = .error (.emptyExtension draft.kind draft.name) := by
  have filed := merges.edited.filed
  have head : cat.emptyExtensions.head? = some draft := by
    rw [filed.emptyExtensions_eq, List.head?_filter, first]
  obtain ⟨more, empty⟩ := List.head?_eq_some_iff.mp head
  have unreadable : ¬ cat.toDocument.IsReadable := by
    rw [filed.isReadable_iff]
    rintro ⟨-, noneEmpty, -⟩
    rw [noneEmpty] at empty
    cases empty
  obtain ⟨e, refused⟩ := merges.outcome_of_unreadable unreadable
  rw [refused, empty]

/-- Two extensions lose what they have. The one that the catalog has first is named. -/
theorem merge_blames_emptyExtension_union : ∃ schema overrides cat draft,
    MergesTo "scalar A extend union U = A extend scalar A @a"
      "extend scalar A @exclude @a extend union U @exclude = A" schema overrides cat ∧
    cat.drafts.find? Draft.isEmptyExtension = some draft ∧
    (merge schema overrides).outcome = .error (.emptyExtension (.extension .union) "U") := by
  have schemaRead : Document.parse "scalar A extend union U = A extend scalar A @a" = .ok ⟨[
      .type none ⟨"A", [], .scalar⟩, .extension ⟨"U", [], .union ["A"]⟩,
      .extension ⟨"A", [⟨"a", []⟩], .scalar⟩]⟩ := by decide +kernel
  have overridesRead :
      Document.parse "extend scalar A @exclude @a extend union U @exclude = A" = .ok ⟨[
        .extension ⟨"A", [⟨"exclude", []⟩, ⟨"a", []⟩], .scalar⟩,
        .extension ⟨"U", [⟨"exclude", []⟩], .union ["A"]⟩]⟩ := by decide +kernel
  have merges := MergesTo.mk schemaRead overridesRead ⟨_, _, rfl, rfl, rfl⟩
  exact ⟨_, _, _, _, merges, rfl, merge_blames_emptyExtension merges rfl⟩

/-- A merge that leaves no extension empty succeeds if something is left, every directive has a
location and every number is in the range of the reader. It does not succeed if nothing is left or
a directive has no location. -/
theorem merge_succeeds
    (merges : MergesTo schemaText overridesText schema overrides cat)
    (noneEmpty : ∀ d ∈ cat.drafts, d.isEmptyExtension = false) :
    (cat.drafts ≠ [] → cat.toDocument.Located → (∀ p ∈ cat.toDocument.pieces, p.Readable) →
      ∃ doc, (merge schema overrides).outcome = .ok doc) ∧
    (cat.drafts = [] ∨ ¬ cat.toDocument.Located →
      ∃ e, (merge schema overrides).outcome = .error (.notNormal e)) := by
  have filed := merges.edited.filed
  have nil := filed.emptyExtensions_eq_nil_iff.mpr noneEmpty
  have left : cat.toDocument.definitions = [] ↔ cat.drafts = [] := by
    rw [Catalog.definitions_toDocument, List.map_eq_nil_iff]
  constructor
  · intro held located readable
    have all := filed.isReadable_iff.mpr ⟨mt left.mp held, nil, located, readable⟩
    exact ⟨_, merges.outcome_of_readable all⟩
  · intro bad
    have unreadable : ¬ cat.toDocument.IsReadable := by
      rw [filed.isReadable_iff]
      rintro ⟨held, -, located, -⟩
      rcases bad with nothing | stray
      · exact held (left.mpr nothing)
      · exact stray located
    obtain ⟨e, refused⟩ := merges.outcome_of_unreadable unreadable
    rw [nil] at refused
    exact ⟨e, refused⟩

end Answers

/-- The edits leave no extension empty, and the document is what they lead to. -/
def Leaves (schema overrides exported : Document) : Prop :=
  ∃ p loaded cat, Plan.ofDocument overrides = .ok p ∧ Catalog.ofDocument schema = .ok loaded ∧
    p.outcome loaded = .ok cat ∧ cat.drafts.all (!·.isEmptyExtension) = true ∧
    cat.toDocument = exported

theorem Leaves.exists_catalog {schemaText overridesText : String}
    {schema overrides exported : Document} (leaves : Leaves schema overrides exported)
    (schemaRead : Document.parse schemaText = .ok schema)
    (overridesRead : Document.parse overridesText = .ok overrides) :
    ∃ cat, MergesTo schemaText overridesText schema overrides cat ∧
      (∀ d ∈ cat.drafts, d.isEmptyExtension = false) ∧ cat.toDocument = exported := by
  obtain ⟨p, loaded, cat, planned, opened, ran, kept, same⟩ := leaves
  have merges := MergesTo.mk schemaRead overridesRead ⟨p, loaded, planned, opened, ran⟩
  exact ⟨cat, merges, by simpa using kept, same⟩

theorem merge_succeeds_directive : ∃ schema overrides cat doc,
    MergesTo "scalar A directive @a on SCALAR" "scalar A @delete" schema overrides cat ∧
    (∀ d ∈ cat.drafts, d.isEmptyExtension = false) ∧
    (merge schema overrides).outcome = .ok doc := by
  have schemaRead : Document.parse "scalar A directive @a on SCALAR" = .ok ⟨[
      .type none ⟨"A", [], .scalar⟩, .directive ⟨none, "a", [], false, [.scalar]⟩]⟩ := by decide +kernel
  have overridesRead : Document.parse "scalar A @delete" =
      .ok ⟨[.type none ⟨"A", [⟨"delete", []⟩], .scalar⟩]⟩ := by decide +kernel
  have leaves : Leaves ⟨[.type none ⟨"A", [], .scalar⟩,
      .directive ⟨none, "a", [], false, [.scalar]⟩]⟩ ⟨[.type none ⟨"A", [⟨"delete", []⟩], .scalar⟩]⟩
      ⟨[.directive ⟨none, "a", [], false, [.scalar]⟩]⟩ := ⟨_, _, _, rfl, rfl, rfl, rfl, rfl⟩
  obtain ⟨cat, merges, noneEmpty, exported⟩ := leaves.exists_catalog schemaRead overridesRead
  have held : cat.drafts ≠ [] := by
    intro nothing
    have none := Catalog.definitions_toDocument cat
    rw [exported, nothing] at none
    cases none
  have located : cat.toDocument.Located := by
    rw [exported]
    intro d member
    cases List.mem_singleton.mp member
    decide
  have readable : ∀ p ∈ cat.toDocument.pieces, p.Readable := by
    rw [exported]
    decide
  obtain ⟨doc, done⟩ := (merge_succeeds merges noneEmpty).1 held located readable
  exact ⟨_, _, cat, doc, merges, noneEmpty, done⟩

/-- The merge of two texts is refused, though every edit is made and no extension is left empty. -/
def Refuses (schemaText overridesText : String) : Prop :=
  ∃ schema overrides cat e, MergesTo schemaText overridesText schema overrides cat ∧
    (∀ d ∈ cat.drafts, d.isEmptyExtension = false) ∧
    (merge schema overrides).outcome = .error (.notNormal e)

theorem Leaves.refuses {schemaText overridesText : String} {schema overrides exported : Document}
    (leaves : Leaves schema overrides exported)
    (schemaRead : Document.parse schemaText = .ok schema)
    (overridesRead : Document.parse overridesText = .ok overrides)
    (unreadable : ¬ exported.IsReadable) : Refuses schemaText overridesText := by
  obtain ⟨cat, merges, noneEmpty, rfl⟩ := leaves.exists_catalog schemaRead overridesRead
  obtain ⟨e, refused⟩ := merges.outcome_of_unreadable unreadable
  rw [merges.edited.filed.emptyExtensions_eq_nil_iff.mpr noneEmpty] at refused
  exact ⟨schema, overrides, cat, e, merges, noneEmpty, refused⟩

/-- Nothing is left, a directive has no location, a number is out of range: each is refused. -/
theorem merge_refuses :
    Refuses "scalar A" "scalar A @delete" ∧
    Refuses "directive @a on \"\" scalar A" "scalar B @create" ∧
    Refuses "scalar A @a(n: -1e401)" "scalar B @create" := by
  have alone : Document.parse "scalar A" = .ok ⟨[.type none ⟨"A", [], .scalar⟩]⟩ := by decide +kernel
  have deletion : Document.parse "scalar A @delete" =
      .ok ⟨[.type none ⟨"A", [⟨"delete", []⟩], .scalar⟩]⟩ := by decide +kernel
  have stray : Document.parse "directive @a on \"\" scalar A" = .ok ⟨[
      .directive ⟨none, "a", [], false, []⟩, .type (some "") ⟨"A", [], .scalar⟩]⟩ := by decide +kernel
  have vast : Document.parse "scalar A @a(n: -1e401)" = .ok ⟨[
      .type none ⟨"A", [⟨"a", [("n", .float ⟨true, .infinite⟩)]⟩], .scalar⟩]⟩ := by decide +kernel
  have creation : Document.parse "scalar B @create" =
      .ok ⟨[.type none ⟨"B", [⟨"create", []⟩], .scalar⟩]⟩ := by decide +kernel
  refine ⟨?_, ?_, ?_⟩
  · apply Leaves.refuses ⟨_, _, _, rfl, rfl, rfl, rfl, rfl⟩ alone deletion
    rintro ⟨held, -⟩
    exact held rfl
  · apply Leaves.refuses ⟨_, _, _, rfl, rfl, rfl, rfl, rfl⟩ stray creation
    rintro ⟨-, complete, -⟩
    exact absurd (complete _ (.head _)) (by decide)
  · apply Leaves.refuses ⟨_, _, _, rfl, rfl, rfl, rfl, rfl⟩ vast creation
    rintro ⟨-, -, readable⟩
    revert readable
    decide

end SchemaOverlay

import SchemaOverlay.Proofs.Overlay.Printable
import SchemaOverlay.Proofs.Sdl.RoundTrip

/-!
An edited catalog written down and read again. It is read unless it is empty, an extension of it
extends nothing, a directive has no location, or a number is too large for the reader. What is read
is written as it was exactly if every string and every number of it is steady.
-/
namespace SchemaOverlay

open Sdl

namespace Sdl

theorem TypeNode.extendsSomething_iff (node : TypeNode) :
    Parser.extendsSomething node = true ↔
      ∃ c ∈ node.body.form.collections, node.entries c ≠ [] := by
  obtain ⟨n, uses, body⟩ := node
  cases body <;>
    simp [Parser.extendsSomething, TypeBody.form, TypeForm.collections, TypeNode.entries,
      TypeBody.entries, or_left_comm]

theorem Definition.isComplete_extension_iff {d : Definition} {form : TypeForm}
    (known : d.kind? = some (.extension form)) :
    d.isComplete = true ↔ ∃ c ∈ form.collections, d.entries c ≠ [] := by
  cases d <;> cases known
  exact TypeNode.extendsSomething_iff _

theorem Definition.isComplete_type {d : Definition} {form : TypeForm}
    (known : d.kind? = some (.type form)) : d.isComplete = true := by
  cases d <;> cases known
  rfl

end Sdl

namespace Draft

variable {d : Draft}

theorem hasNoEntries_iff (formed : d.WellFormed) :
    d.hasNoEntries = true ↔ ∀ c ∈ d.kind.collections, d.toDefinition.entries c = [] := by
  have held : d.collections.values = d.kind.collections.map d.held := by
    rw [Keyed.values, Keyed.pairs_eq_map_keys formed.distinct .empty, formed.collections,
      List.map_map]
    rfl
  have vacant : ∀ es : Entries, es.isEmpty = true ↔ es.values = [] := by
    intro es
    rw [Keyed.isEmpty, Keyed.values, List.isEmpty_iff, List.map_eq_nil_iff]
  rw [hasNoEntries, held, List.all_map, List.all_eq_true]
  refine forall₂_congr fun c supported => ?_
  rw [entries_toDefinition formed supported]
  exact vacant _

theorem isComplete_extension_iff (formed : d.WellFormed) {form : TypeForm}
    (extension : d.kind = .extension form) :
    d.toDefinition.isComplete = true ↔ d.hasNoEntries = false := by
  have known := (kind?_toDefinition formed).trans (congrArg some extension)
  rw [Definition.isComplete_extension_iff known, ← Bool.not_eq_true, hasNoEntries_iff formed,
    extension]
  simp [Kind.collections]

end Draft

/-- Every directive that is defined may stand somewhere. -/
def Sdl.Document.Located (doc : Document) : Prop :=
  ∀ d, .directive d ∈ doc.definitions → d.locations ≠ []

def Draft.isEmptyExtension (d : Draft) : Bool := d.registry = .extensions && d.hasNoEntries

namespace Catalog

variable {cat : Catalog}

theorem Filed.emptyExtensions_eq (filed : cat.Filed) :
    cat.emptyExtensions = cat.drafts.filter Draft.isEmptyExtension := by
  have extensions : cat.extensions.values = cat.drafts.filter (·.registry = .extensions) :=
    (filed.filter_drafts .extensions).symm
  rw [emptyExtensions, extensions, List.filter_filter]
  apply List.filter_congr
  intro d _
  rw [Draft.isEmptyExtension, Bool.and_comm]

theorem Filed.emptyExtensions_eq_nil_iff (filed : cat.Filed) :
    cat.emptyExtensions = [] ↔ ∀ d ∈ cat.drafts, d.isEmptyExtension = false := by
  rw [filed.emptyExtensions_eq, List.filter_eq_nil_iff]
  simp only [Bool.not_eq_true]

theorem isComplete_iff {d : Draft} (formed : d.WellFormed) :
    d.toDefinition.isComplete = true ↔ d.isEmptyExtension = false ∧
      ∀ definition, d.toDefinition = .directive definition → definition.locations ≠ [] := by
  have known := Draft.kind?_toDefinition formed
  cases kind : d.kind with
  | directive =>
    have other : d.isEmptyExtension = false := by
      simp [Draft.isEmptyExtension, Draft.registry, kind, Kind.registry]
    cases is : d.toDefinition with
    | directive definition => simp [Definition.isComplete, other]
    | schema s => simp [is, kind, Definition.kind?] at known
    | type text node => simp [is, kind, Definition.kind?] at known
    | extension node => simp [is, kind, Definition.kind?] at known
  | type form =>
    have other : d.isEmptyExtension = false := by
      simp [Draft.isEmptyExtension, Draft.registry, kind, Kind.registry]
    have complete := Definition.isComplete_type (known.trans (congrArg some kind))
    refine iff_of_true complete ⟨other, fun definition is => ?_⟩
    simp [is, kind, Definition.kind?] at known
  | extension form =>
    have empty : d.isEmptyExtension = d.hasNoEntries := by
      simp [Draft.isEmptyExtension, Draft.registry, kind, Kind.registry]
    rw [Draft.isComplete_extension_iff formed kind, empty]
    refine (and_iff_left fun definition is => ?_).symm
    simp [is, kind, Definition.kind?] at known

theorem Filed.complete_iff (filed : cat.Filed) :
    (∀ d ∈ cat.toDocument.definitions, d.isComplete = true) ↔
      cat.emptyExtensions = [] ∧ cat.toDocument.Located := by
  rw [filed.emptyExtensions_eq_nil_iff, Document.Located, definitions_toDocument,
    List.forall_mem_map]
  constructor
  · intro complete
    constructor
    · intro d member
      obtain ⟨_, files⟩ := filed.mem_drafts member
      exact ((isComplete_iff files.formed).mp (complete d member)).1
    · intro definition member
      obtain ⟨d, inside, same⟩ := List.mem_map.mp member
      obtain ⟨_, files⟩ := filed.mem_drafts inside
      exact ((isComplete_iff files.formed).mp (complete d inside)).2 definition same
  · intro both d member
    obtain ⟨_, files⟩ := filed.mem_drafts member
    apply (isComplete_iff files.formed).mpr
    constructor
    · exact both.1 d member
    · intro definition same
      exact both.2 definition (same ▸ List.mem_map_of_mem member)

/-- When the text of a catalog is read again. -/
theorem Filed.isReadable_iff (filed : cat.Filed) :
    cat.toDocument.IsReadable ↔ cat.toDocument.definitions ≠ [] ∧ cat.emptyExtensions = [] ∧
      cat.toDocument.Located ∧ ∀ p ∈ cat.toDocument.pieces, p.Readable := by
  rw [Document.IsReadable, filed.complete_iff, and_assoc]

theorem Edited.isReadable_of_normalize (edited : cat.Edited) {doc : Document}
    (read : cat.normalize = .ok doc) : cat.toDocument.IsReadable := by
  by_contra unreadable
  obtain ⟨e, refused⟩ := (Document.parse_print edited.formed).2 unreadable
  exact nomatch read.symm.trans refused

/-- If the text of an edited catalog is read again, then as the catalog with each literal as its
text is read. That document has the same text exactly if every string and every number of the
catalog is steady. -/
theorem normalize_faithful_iff (edited : cat.Edited) {doc : Document}
    (read : cat.normalize = .ok doc) :
    doc = cat.toDocument.reread ∧
      (doc.print = cat.print ↔ ∀ p ∈ cat.toDocument.pieces, p.Steady) := by
  have readable := edited.isReadable_of_normalize read
  have again := (Document.parse_print edited.formed).1 readable
  have same : doc = cat.toDocument.reread := Except.ok.inj (read.symm.trans again)
  subst same
  exact ⟨rfl, Document.print_reread_iff edited.formed readable.2.2⟩

def quotedText : String := "\"a \\\"b\\\"\" scalar A @d(n: -2)"

def quoted : Document := ⟨[.type (some "a \"b\"") ⟨"A", [⟨"d", [("n", .int (-2))]⟩], .scalar⟩]⟩

def blockText : String := "scalar A @extend @e(a: \"\"\"\nx\n  y\n\"\"\")"

def block : Document :=
  ⟨[.type none ⟨"A", [⟨"extend", []⟩, ⟨"e", [("a", .string "x\n  y")]⟩], .scalar⟩]⟩

def quotedWithBlock : Document :=
  ⟨[.type (some "a \"b\"")
    ⟨"A", [⟨"d", [("n", .int (-2))]⟩, ⟨"e", [("a", .string "x\n  y")]⟩], .scalar⟩]⟩

theorem normalize_faithful_iff_quoted :
    ∃ schema overrides cat p read, Document.parse quotedText = .ok schema ∧
      Catalog.ofDocument schema = .ok cat ∧ Document.parse blockText = .ok overrides ∧
      Plan.ofDocument overrides = .ok p ∧ (p.applyTo cat).2.catalog.normalize = .ok read ∧
      read.print = (p.applyTo cat).2.catalog.print := by
  have schemaRead : Document.parse quotedText = .ok quoted := by decide +kernel
  have overridesRead : Document.parse blockText = .ok block := by decide +kernel
  have ran : ∃ cat p, ofDocument quoted = .ok cat ∧ Plan.ofDocument block = .ok p ∧
      (p.applyTo cat).2.catalog.toDocument = quotedWithBlock := ⟨_, _, rfl, rfl, rfl⟩
  obtain ⟨cat, p, loaded, planned, exported⟩ := ran
  have edited : (p.applyTo cat).2.catalog.Edited :=
    .applied overridesRead planned (.loaded schemaRead loaded)
  have readable : (p.applyTo cat).2.catalog.toDocument.IsReadable := by
    rw [exported]
    exact ⟨by decide, by decide, by decide⟩
  have steady : ∀ q ∈ (p.applyTo cat).2.catalog.toDocument.pieces, q.Steady := by
    rw [exported]
    decide
  have read := (Document.parse_print edited.formed).1 readable
  exact ⟨quoted, block, cat, p, _, schemaRead, loaded, overridesRead, planned, read,
    (normalize_faithful_iff edited read).2.mpr steady⟩

/-- A description outside the characters that are written as they are. -/
def grinning : Document := ⟨[.type (some "😀") ⟨"A", [], .scalar⟩]⟩

/-- The code of the character is written in decimal and read in hexadecimal. -/
theorem normalize_grinning :
    ∃ cat read, Document.parse "\"😀\" scalar A" = .ok grinning ∧ ofDocument grinning = .ok cat ∧
      cat.normalize = .ok read ∧ cat.print = "\"\\u128512\"\nscalar A\n" ∧
      read.print = "\"ኅ12\"\nscalar A\n" ∧ read.print ≠ cat.print := by
  have text : Document.parse "\"😀\" scalar A" = .ok grinning := by decide +kernel
  have loaded : ∃ cat, ofDocument grinning = .ok cat ∧ cat.toDocument = grinning := ⟨_, rfl, rfl⟩
  obtain ⟨cat, loaded, exported⟩ := loaded
  have again : Document.parse grinning.print = .ok ⟨[.type (some "ኅ12") ⟨"A", [], .scalar⟩]⟩ := by
    decide +kernel
  refine ⟨cat, _, text, loaded, exported ▸ again, ?_, ?_, ?_⟩
  · rw [Catalog.print, exported]
    decide +kernel
  · decide +kernel
  · rw [Catalog.print, exported]
    decide

end Catalog

end SchemaOverlay

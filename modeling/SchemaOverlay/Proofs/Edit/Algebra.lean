import SchemaOverlay.Proofs.Edit.Listing

/-!
The laws of extending and excluding drafts of one kind. Extending is an ordered union in which what
is there wins, and for descriptions what comes last; it is associative, and a draft that is extended
by the same one again stays as it is. Excluding takes names away, also those that extending brought.
-/
namespace SchemaOverlay

open Sdl

section Lists

variable {l m : List Entry} {n : Name}

def gathered (l m : List Entry) : List Entry := l ++ m.filter fun e => e.name ∉ names l

def stripped (l m : List Entry) : List Entry := l.filter fun e => e.name ∉ names m

theorem mem_names : n ∈ names l ↔ ∃ e ∈ l, e.name = n := List.mem_map

theorem mem_names_gathered : n ∈ names (gathered l m) ↔ n ∈ names l ∨ n ∈ names m := by
  simp only [gathered, names, List.map_append, List.mem_append]
  constructor
  · rintro (own | new)
    · exact Or.inl own
    · exact Or.inr ((List.filter_sublist.map Entry.name).subset new)
  · rintro (own | new)
    · exact Or.inl own
    · by_cases own : n ∈ l.map Entry.name
      · exact Or.inl own
      · obtain ⟨e, listed, rfl⟩ := List.mem_map.mp new
        exact Or.inr (List.mem_map_of_mem (List.mem_filter.mpr ⟨listed, decide_eq_true own⟩))

end Lists

namespace Sdl.Definition

theorem describe_describe (d : Definition) (s t : String) :
    (d.describe s).describe t = d.describe t := by
  cases d <;> rfl

end Sdl.Definition

namespace Draft

theorem takeDescription_takeDescription (skeleton : Definition) (s t : Option String) :
    takeDescription (takeDescription skeleton s) t =
      takeDescription skeleton ((t.filter (!·.isEmpty)).or s) := by
  cases t with
  | none => rfl
  | some text =>
    by_cases blank : text.isEmpty = true
    · simp [takeDescription, Option.filter, blank]
    · cases s with
      | none => simp [takeDescription, Option.filter, blank]
      | some old =>
        by_cases silent : old.isEmpty = true <;>
          simp [takeDescription, Option.filter, blank, silent, Definition.describe_describe]

theorem takeDescription_again (skeleton : Definition) (text : Option String) :
    takeDescription (takeDescription skeleton text) text = takeDescription skeleton text := by
  rw [takeDescription_takeDescription]
  cases text with
  | none => rfl
  | some text => cases said : text.isEmpty <;> simp [Option.filter, said]

section Equality

variable {d d' : Draft}

theorem WellFormed.fileEntries_listed (formed : d.WellFormed) (c : Collection) :
    fileEntries (d.listed c) = d.held c :=
  fileEntries_values (formed.fits_held c)

theorem WellFormed.collections_eq_of_listed (formed : d.WellFormed) (formed' : d'.WellFormed)
    (kind : d'.kind = d.kind) (listed : ∀ c, d'.listed c = d.listed c) :
    d'.collections = d.collections := by
  have held : ∀ c, d'.held c = d.held c := fun c => by
    rw [← formed'.fileEntries_listed, listed, formed.fileEntries_listed]
  apply Keyed.eq_of_pairs
  rw [Keyed.pairs_eq_map_keys formed'.distinct .empty, Keyed.pairs_eq_map_keys formed.distinct
    .empty, formed'.collections, formed.collections, kind]
  refine List.map_congr_left fun c _ => ?_
  exact congrArg (Prod.mk c) (held c)

/-- A well-formed draft is its skeleton and what its collections list. -/
theorem WellFormed.eq_of_listed (formed : d.WellFormed) (formed' : d'.WellFormed)
    (skeleton : d'.skeleton = d.skeleton) (listed : ∀ c, d'.listed c = d.listed c) : d' = d := by
  have kind : d'.kind = d.kind :=
    Option.some.inj (formed'.kind.symm.trans (skeleton ▸ formed.kind))
  have name : d'.name = d.name :=
    Option.some.inj (formed'.name.symm.trans (skeleton ▸ formed.name))
  have collections := formed.collections_eq_of_listed formed' kind listed
  cases d
  cases d'
  simp only at skeleton kind name collections
  rw [skeleton, kind, name, collections]

end Equality

section Laws

variable {a b c e f : Draft}

theorem skeleton_shed (d : Draft) (listed : List (Collection × Entries)) :
    (d.shed listed).skeleton = d.skeleton := by
  induction listed generalizing d with
  | nil => rfl
  | cons p rest ih =>
    obtain ⟨k, names⟩ := p
    cases found : d.collections.get? k with
    | some es => rw [shed_cons_of_held rest found, ih]; rfl
    | none => rw [shed_cons_of_vacant names rest found, ih]

theorem exists_extendWith (same : b.kind = a.kind) : ∃ e, a.extendWith b = .ok e :=
  ⟨_, extendWith_eq_ok_iff.mpr ⟨same.symm, rfl⟩⟩

end Laws

end Draft

end SchemaOverlay

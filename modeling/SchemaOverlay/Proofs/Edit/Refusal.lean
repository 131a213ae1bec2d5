import SchemaOverlay.Proofs.Edit.Filing
import SchemaOverlay.Proofs.Edit.Listing

/-!
The reasons for which calls are refused, as two relations that know nothing of how a call is carried
out: which collections a kind has, what its definitions can list there, and which names are taken.
A call fails with an error exactly if the relation gives that error as the reason.
-/
namespace SchemaOverlay

open Sdl

namespace Sdl.Kind

variable {kind : Kind} {c : Collection} {e : Entry}

def Lists (kind : Kind) (c : Collection) (e : Entry) : Prop :=
  ∃ node : Definition, node.kind? = some kind ∧ e ∈ node.entries c

theorem exists_definition (kind : Kind) : ∃ node : Definition, node.kind? = some kind := by
  have body : ∀ form : TypeForm, ∃ b : TypeBody, b.form = form := by
    intro form
    cases form with
    | scalar => exact ⟨.scalar, rfl⟩
    | object => exact ⟨.object [] [], rfl⟩
    | interface => exact ⟨.interface [] [], rfl⟩
    | union => exact ⟨.union [], rfl⟩
    | enum => exact ⟨.enum [], rfl⟩
    | inputObject => exact ⟨.inputObject [], rfl⟩
  cases kind with
  | directive => exact ⟨.directive ⟨none, "", [], false, []⟩, rfl⟩
  | type form =>
    obtain ⟨b, rfl⟩ := body form
    exact ⟨.type none ⟨"", [], b⟩, rfl⟩
  | extension form =>
    obtain ⟨b, rfl⟩ := body form
    exact ⟨.extension ⟨"", [], b⟩, rfl⟩

theorem Lists.supported (lists : kind.Lists c e) : c ∈ kind.collections := by
  obtain ⟨node, known, member⟩ := lists
  by_contra unsupported
  rw [Definition.entries_of_unsupported known unsupported] at member
  cases member

theorem lists_iff_admits (supported : c ∈ kind.collections) :
    kind.Lists c e ↔ kind.admits c e = true := by
  constructor
  · rintro ⟨node, known, member⟩
    exact Definition.admits_of_mem_entries known member
  · intro admitted
    obtain ⟨node, known⟩ := kind.exists_definition
    have only : ∀ f ∈ [e], kind.admits c f = true := by simpa using admitted
    refine ⟨node.withEntries c [e], (Definition.kind?_withEntries node c [e]).trans known, ?_⟩
    rw [Definition.entries_withEntries_self known supported only]
    exact List.mem_singleton_self e

end Sdl.Kind

namespace Draft

variable {d d' : Draft} {c : Collection} {e : Entry} {n : Name} {asked : Edit} {err : EditError}

def attempt (d : Draft) : Move → Except EditError Draft
  | .edit c asked => d.edit c asked
  | .extend other => d.extendWith other
  | .exclude other => d.excludeWith other

/-- Why a call on a draft is refused. The names that count are those the draft would export. -/
inductive Refuses (d : Draft) : Move → EditError → Prop
  | unsupported {c : Collection} {asked : Edit} (missing : c ∉ d.kind.collections) :
      Refuses d (.edit c asked) (.collectionNotSupported c d.name d.kind)
  | mismatched {c : Collection} {asked : Edit} {e : Entry} (supported : c ∈ d.kind.collections)
      (offered : asked.entry? = some e) (alien : ¬ d.kind.Lists c e) :
      Refuses d (.edit c asked) (.mismatchedEntry c d.name d.kind e.word)
  | duplicate {c : Collection} {e : Entry} (lists : d.kind.Lists c e)
      (present : e.name ∈ names (d.toDefinition.entries c)) :
      Refuses d (.edit c (.create e)) (.duplicateEntry c d.name e.name)
  | nothingToReplace {c : Collection} {e : Entry} (lists : d.kind.Lists c e)
      (absent : e.name ∉ names (d.toDefinition.entries c)) :
      Refuses d (.edit c (.replace e)) (.entryNotFound c d.name e.name)
  | nothingToRemove {c : Collection} {n : Name} (supported : c ∈ d.kind.collections)
      (absent : n ∉ names (d.toDefinition.entries c)) :
      Refuses d (.edit c (.remove n)) (.entryNotFound c d.name n)
  | unextendable {other : Draft} (differ : d.kind ≠ other.kind) :
      Refuses d (.extend other) (.kindMismatch d.name d.kind other.kind)
  | unexcludable {other : Draft} (differ : d.kind ≠ other.kind) :
      Refuses d (.exclude other) (.kindMismatch d.name d.kind other.kind)

def Lacks (d : Draft) (c : Collection) (err : EditError) : Prop :=
  c ∉ d.kind.collections ∧ err = .collectionNotSupported c d.name d.kind

theorem map_eq_error_iff {α β ε : Type} {x : Except ε α} {f : α → β} {e : ε} :
    f <$> x = .error e ↔ x = .error e := by
  cases x <;> simp [Functor.map, Except.map]

theorem supports_eq_true_iff : d.supports c = true ↔ c ∈ d.kind.collections :=
  List.contains_iff_mem

theorem check_of_unsupported (missing : c ∉ d.kind.collections) (e : Entry) :
    d.check c e = .error (.collectionNotSupported c d.name d.kind) := by
  have unsupported : d.supports c = false := by
    simpa using mt supports_eq_true_iff.mp missing
  simp [check, unsupported, notSupported]

theorem check_of_alien (supported : c ∈ d.kind.collections) (alien : ¬ d.kind.Lists c e) :
    d.check c e = .error (.mismatchedEntry c d.name d.kind e.word) := by
  have refused : d.kind.admits c e = false := by
    simpa using mt (Kind.lists_iff_admits supported).mpr alien
  simp [check, supports_eq_true_iff.mpr supported, refused]

theorem check_of_lists (lists : d.kind.Lists c e) : d.check c e = .ok () :=
  check_eq_ok_iff.mpr ⟨supports_eq_true_iff.mpr lists.supported,
    (Kind.lists_iff_admits lists.supported).mp lists⟩

theorem edit_of_check (offered : asked.entry? = some e) (refused : d.check c e = .error err) :
    d.edit c asked = .error err := by
  cases asked <;> cases offered <;> simp [edit, create, replace, upsert, refused, bind, Except.bind]

theorem edit_of_unsupported (missing : c ∉ d.kind.collections) (asked : Edit) :
    d.edit c asked = .error (.collectionNotSupported c d.name d.kind) := by
  cases offered : asked.entry? with
  | some e => exact edit_of_check offered (check_of_unsupported missing e)
  | none =>
    have unsupported : d.supports c = false := by
      simpa using mt supports_eq_true_iff.mp missing
    cases asked <;> cases offered <;> simp [edit, delete, remove, unsupported, notSupported]

section Formed

variable (formed : d.WellFormed)

include formed

theorem create_eq (lists : d.kind.Lists c e) :
    d.create c e =
      if e.name ∈ names (d.toDefinition.entries c) then
        .error (.duplicateEntry c d.name e.name)
      else .ok (d.file c e) := by
  have supported := supports_eq_true_iff.mpr lists.supported
  simp only [create, check_of_lists lists, has_eq_listed formed supported,
    listed_toDefinition formed supported, bind, Except.bind]
  by_cases present : e.name ∈ names (d.listed c) <;> simp [present] <;> rfl

theorem replace_eq (lists : d.kind.Lists c e) :
    d.replace c e =
      if e.name ∈ names (d.toDefinition.entries c) then .ok (d.file c e)
      else .error (.entryNotFound c d.name e.name) := by
  have supported := supports_eq_true_iff.mpr lists.supported
  simp only [replace, check_of_lists lists, has_eq_listed formed supported,
    listed_toDefinition formed supported, bind, Except.bind]
  by_cases present : e.name ∈ names (d.listed c) <;> simp [present] <;> rfl

theorem remove_eq (supported : c ∈ d.kind.collections) (n : Name) :
    d.remove c n =
      if n ∈ names (d.toDefinition.entries c) then .ok (d.setHeld c ((d.held c).erase n))
      else .error (.entryNotFound c d.name n) := by
  have supports := supports_eq_true_iff.mpr supported
  rw [listed_toDefinition formed supports]
  by_cases present : n ∈ names (d.listed c) <;>
    simp [remove, supports, contains_held formed supports, present]

theorem refuses_of_edit (failed : d.edit c asked = .error err) :
    d.Refuses (.edit c asked) err := by
  by_cases supported : c ∈ d.kind.collections
  · by_cases alien : ∃ e, asked.entry? = some e ∧ ¬ d.kind.Lists c e
    · obtain ⟨e, offered, alien⟩ := alien
      rw [edit_of_check offered (check_of_alien supported alien)] at failed
      cases failed
      exact .mismatched supported offered alien
    · have lists : ∀ e, asked.entry? = some e → d.kind.Lists c e := by simpa using alien
      -- What is left depends on the names that are there.
      cases asked with
      | create e =>
        rw [edit, create_eq formed (lists e rfl)] at failed
        split at failed <;> cases failed
        exact .duplicate (lists e rfl) ‹_›
      | replace e =>
        rw [edit, replace_eq formed (lists e rfl)] at failed
        split at failed <;> cases failed
        exact .nothingToReplace (lists e rfl) ‹_›
      | upsert e =>
        simp [edit, upsert, check_of_lists (lists e rfl), bind, Except.bind, pure,
          Except.pure] at failed
      | delete n => simp [edit, delete, supports_eq_true_iff.mpr supported] at failed
      | remove n =>
        rw [edit, remove_eq formed supported] at failed
        split at failed <;> cases failed
        exact .nothingToRemove supported ‹_›
  · rw [edit_of_unsupported supported] at failed
    cases failed
    exact .unsupported supported

theorem attempt_eq_error_iff {m : Move} : d.attempt m = .error err ↔ d.Refuses m err := by
  constructor
  · intro failed
    cases m with
    | edit c asked => exact refuses_of_edit formed failed
    | extend other =>
      by_cases same : d.kind = other.kind
      · simp [attempt, extendWith, checkSameKind, same, bind, Except.bind, pure,
          Except.pure] at failed
      · simp only [attempt, extendWith, checkSameKind, same, ↓reduceIte, bind, Except.bind,
          Except.error.injEq] at failed
        exact failed ▸ .unextendable same
    | exclude other =>
      by_cases same : d.kind = other.kind
      · simp [attempt, excludeWith, checkSameKind, same, bind, Except.bind, pure,
          Except.pure] at failed
      · simp only [attempt, excludeWith, checkSameKind, same, ↓reduceIte, bind, Except.bind,
          Except.error.injEq] at failed
        exact failed ▸ .unexcludable same
  · intro refused
    cases refused with
    | unsupported missing => exact edit_of_unsupported missing _
    | mismatched supported offered alien =>
      exact edit_of_check offered (check_of_alien supported alien)
    | duplicate lists present => exact (create_eq formed lists).trans (if_pos present)
    | nothingToReplace lists absent => exact (replace_eq formed lists).trans (if_neg absent)
    | nothingToRemove supported absent => exact (remove_eq formed supported _).trans (if_neg absent)
    | unextendable differ => simp [attempt, extendWith, checkSameKind, differ, bind, Except.bind]
    | unexcludable differ => simp [attempt, excludeWith, checkSameKind, differ, bind, Except.bind]

theorem collection_eq_error_iff : d.collection c = .error err ↔ d.Lacks c err := by
  rw [Lacks]
  by_cases supported : c ∈ d.kind.collections
  · simp [collection, formed.get?_held (supports_eq_true_iff.mpr supported), supported]
  · have vacant : d.collections.get? c = none := by
      rw [Keyed.get?_eq_none_iff, formed.collections]
      exact supported
    simp [collection, vacant, supported, notSupported, eq_comm]

theorem reads_eq_error_iff :
    (d.has c n = .error err ↔ d.Lacks c err) ∧ (d.get? c n = .error err ↔ d.Lacks c err) ∧
      (d.entries c = .error err ↔ d.Lacks c err) := by
  rw [has, get?, entries, map_eq_error_iff, map_eq_error_iff, map_eq_error_iff,
    collection_eq_error_iff formed]
  exact ⟨Iff.rfl, Iff.rfl, Iff.rfl⟩

end Formed

end Draft

namespace Catalog

variable {cat : Catalog} {r : Registry} {d : Definition} {kind : Kind} {name : Name}
  {err : EditError}

inductive Request
  | create (d : Definition)
  | replace (d : Definition)
  | upsert (d : Definition)
  | extend (d : Definition)
  | exclude (d : Definition)
  | delete (n : Name)
  | remove (n : Name)

namespace Request

def definition? : Request → Option Definition
  | .create d | .replace d | .upsert d | .extend d | .exclude d => some d
  | .delete _ | .remove _ => none

def amends : Request → Bool
  | .replace _ | .extend _ | .exclude _ => true
  | .create _ | .upsert _ | .delete _ | .remove _ => false

def merges : Request → Bool
  | .extend _ | .exclude _ => true
  | .create _ | .replace _ | .upsert _ | .delete _ | .remove _ => false

end Request

def attempt (cat : Catalog) (r : Registry) : Request → Except EditError Catalog
  | .create d => cat.create r d
  | .replace d => cat.replace r d
  | .upsert d => cat.upsert r d
  | .extend d => cat.extend r d
  | .exclude d => cat.exclude r d
  | .delete n => .ok (cat.delete r n)
  | .remove n => cat.remove r n

inductive Refuses (cat : Catalog) (r : Registry) : Request → EditError → Prop
  | unsupported {q : Request} {s : SchemaDefinition} (offered : q.definition? = some (.schema s)) :
      Refuses cat r q .unsupportedKind
  | misplaced {q : Request} {d : Definition} {kind : Kind} {name : Name}
      (offered : q.definition? = some d) (known : d.kind? = some kind)
      (named : d.name? = some name) (elsewhere : kind.registry ≠ r) :
      Refuses cat r q (.wrongRegistry name kind r)
  | alreadyThere {d : Definition} {kind : Kind} {name : Name} (known : d.kind? = some kind)
      (named : d.name? = some name) (here : kind.registry = r) (present : name ∈ cat.names r) :
      Refuses cat r (.create d) (.alreadyExists name r)
  | nothingToAmend {q : Request} {d : Definition} {kind : Kind} {name : Name}
      (offered : q.definition? = some d) (amends : q.amends = true) (known : d.kind? = some kind)
      (named : d.name? = some name) (here : kind.registry = r) (absent : name ∉ cat.names r) :
      Refuses cat r q (.notFound name r)
  | nothingToRemove {n : Name} (absent : n ∉ cat.names r) :
      Refuses cat r (.remove n) (.notFound n r)
  | unmergeable {q : Request} {d : Definition} {kind : Kind} {name : Name} {first : Draft}
      (offered : q.definition? = some d) (merges : q.merges = true) (known : d.kind? = some kind)
      (named : d.name? = some name) (here : kind.registry = r)
      (held : cat.get? r name = some first) (differ : first.kind ≠ kind) :
      Refuses cat r q (.kindMismatch name first.kind kind)

theorem draftFor_schema (r : Registry) (s : SchemaDefinition) :
    draftFor r (.schema s) = .error .unsupportedKind :=
  rfl

theorem draftFor_elsewhere (known : d.kind? = some kind) (named : d.name? = some name)
    (elsewhere : kind.registry ≠ r) : draftFor r d = .error (.wrongRegistry name kind r) := by
  simp [draftFor, Draft.ofDefinition_eq known named, Draft.registry, Draft.opened, elsewhere, bind,
    Except.bind, throw, throwThe, MonadExceptOf.throw]

theorem draftFor_here (known : d.kind? = some kind) (named : d.name? = some name)
    (here : kind.registry = r) : draftFor r d = .ok (.opened kind name d) :=
  draftFor_eq_ok_iff.mpr ⟨Draft.ofDefinition_eq known named, here⟩

theorem get?_eq_none_iff {n : Name} : cat.get? r n = none ↔ n ∉ cat.names r :=
  Keyed.get?_eq_none_iff

theorem exists_get? {n : Name} (present : n ∈ cat.names r) : ∃ d, cat.get? r n = some d :=
  Option.isSome_iff_exists.mp (Keyed.get?_isSome_iff.mpr present)

theorem attempt_of_draftFor {q : Request} (offered : q.definition? = some d)
    (refused : draftFor r d = .error err) : cat.attempt r q = .error err := by
  cases q <;> cases offered <;>
    simp [attempt, create, replace, upsert, extend, exclude, refused, bind, Except.bind]

theorem attempt_of_held {incoming first : Draft} (made : draftFor r d = .ok incoming)
    (held : cat.get? r incoming.name = some first) :
    cat.attempt r (.create d) = .error (.alreadyExists incoming.name r) := by
  simp [attempt, create_eq made, held]

theorem attempt_of_vacant {q : Request} (offered : q.definition? = some d)
    (amends : q.amends = true) {incoming : Draft} (made : draftFor r d = .ok incoming)
    (vacant : cat.get? r incoming.name = none) :
    cat.attempt r q = .error (.notFound incoming.name r) := by
  cases q <;> cases offered <;> cases amends <;>
    simp [attempt, replace_eq made, extend_eq made, exclude_eq made, vacant]

theorem attempt_of_differ {q : Request} (offered : q.definition? = some d)
    (merges : q.merges = true) {incoming first : Draft} (made : draftFor r d = .ok incoming)
    (held : cat.get? r incoming.name = some first) (differ : first.kind ≠ incoming.kind) :
    cat.attempt r q = .error (.kindMismatch first.name first.kind incoming.kind) := by
  cases q <;> cases offered <;> cases merges <;>
    simp [attempt, extend_eq made, exclude_eq made, held, Draft.extendWith, Draft.excludeWith,
      Draft.checkSameKind, differ, bind, Except.bind, Except.map]

theorem attempt_of_same {q : Request} (offered : q.definition? = some d)
    (merges : q.merges = true) {incoming first : Draft} (made : draftFor r d = .ok incoming)
    (held : cat.get? r incoming.name = some first) (same : first.kind = incoming.kind) :
    ∃ cat', cat.attempt r q = .ok cat' := by
  have extended := Draft.extendWith_eq_ok_iff.mpr ⟨same, rfl⟩
  have excluded := Draft.excludeWith_eq_ok_iff.mpr ⟨same, rfl⟩
  cases q <;> cases offered <;> cases merges
  · simp [attempt, extend_eq made, held, extended, Except.map]
  · simp [attempt, exclude_eq made, held, excluded, Except.map]

theorem refuses_of_vacant {q : Request} (offered : q.definition? = some d)
    (known : d.kind? = some kind) (named : d.name? = some name) (here : kind.registry = r)
    (vacant : cat.get? r name = none) (failed : cat.attempt r q = .error err) :
    cat.Refuses r q err := by
  have made := draftFor_here known named here
  have called : (Draft.opened kind name d).name = name := rfl
  by_cases amends : q.amends = true
  · rw [attempt_of_vacant offered amends made vacant] at failed
    cases failed
    exact .nothingToAmend offered amends known named here (get?_eq_none_iff.mp vacant)
  · cases q <;> cases offered <;> first | exact absurd rfl amends | skip
    · simp [attempt, create_eq made, called, vacant] at failed
    · simp [attempt, upsert_eq made] at failed

theorem refuses_of_held (filed : cat.Filed) {q : Request} (offered : q.definition? = some d)
    (known : d.kind? = some kind) (named : d.name? = some name) (here : kind.registry = r)
    {first : Draft} (held : cat.get? r name = some first) (failed : cat.attempt r q = .error err) :
    cat.Refuses r q err := by
  have made := draftFor_here known named here
  have called : (Draft.opened kind name d).name = name := rfl
  by_cases merges : q.merges = true
  · by_cases same : first.kind = kind
    · obtain ⟨cat', done⟩ := attempt_of_same offered merges made held same
      rw [done] at failed
      cases failed
    · rw [attempt_of_differ offered merges made held same, (filed.get? held).name] at failed
      cases failed
      exact .unmergeable offered merges known named here held same
  · cases q <;> cases offered <;> first | exact absurd rfl merges | skip
    · rw [attempt_of_held made held] at failed
      cases failed
      exact .alreadyThere known named here (mem_names_of_get? held)
    · simp [attempt, replace_eq made, called, held] at failed
    · simp [attempt, upsert_eq made] at failed

theorem refuses_of_attempt (filed : cat.Filed) {q : Request}
    (failed : cat.attempt r q = .error err) : cat.Refuses r q err := by
  cases offered : q.definition? with
  | none =>
    cases q <;> cases offered
    · cases failed
    · rename_i n
      rw [attempt, remove_eq] at failed
      cases held : cat.get? r n with
      | none =>
        simp only [held, Except.error.injEq] at failed
        exact failed ▸ .nothingToRemove (get?_eq_none_iff.mp held)
      | some first => simp [held] at failed
  | some d =>
    by_cases schema : ∃ s, d = .schema s
    · obtain ⟨s, rfl⟩ := schema
      rw [attempt_of_draftFor offered (draftFor_schema r s)] at failed
      cases failed
      exact .unsupported offered
    · obtain ⟨kind, name, known, named⟩ : ∃ kind name, d.kind? = some kind ∧
          d.name? = some name := by
        cases d with
        | schema s => exact absurd ⟨s, rfl⟩ schema
        | _ => exact ⟨_, _, rfl, rfl⟩
      by_cases here : kind.registry = r
      · cases held : cat.get? r name with
        | none => exact refuses_of_vacant offered known named here held failed
        | some first => exact refuses_of_held filed offered known named here held failed
      · rw [attempt_of_draftFor offered (draftFor_elsewhere known named here)] at failed
        cases failed
        exact .misplaced offered known named here

theorem attempt_eq_error_iff (filed : cat.Filed) {q : Request} :
    cat.attempt r q = .error err ↔ cat.Refuses r q err := by
  constructor
  · exact refuses_of_attempt filed
  · intro refused
    cases refused with
    | unsupported offered => exact attempt_of_draftFor offered (draftFor_schema r _)
    | misplaced offered known named elsewhere =>
      exact attempt_of_draftFor offered (draftFor_elsewhere known named elsewhere)
    | alreadyThere known named here present =>
      obtain ⟨first, held⟩ := exists_get? present
      exact attempt_of_held (draftFor_here known named here) held
    | nothingToAmend offered amends known named here absent =>
      exact attempt_of_vacant offered amends (draftFor_here known named here)
        (get?_eq_none_iff.mpr absent)
    | nothingToRemove absent => rw [attempt, remove_eq, get?_eq_none_iff.mpr absent]
    | unmergeable offered merges known named here held differ =>
      have failed := attempt_of_differ offered merges (draftFor_here known named here) held differ
      rwa [(filed.get? held).name] at failed

end Catalog

end SchemaOverlay

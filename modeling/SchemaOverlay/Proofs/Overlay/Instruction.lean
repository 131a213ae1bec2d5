import SchemaOverlay.Proofs.Overlay.Recording

/-!
What an action directive asks for where it stands, and for what it is refused. It belongs on a type
definition or a type extension, or on a direct member of one, and it asks for an edit that holds
what it stands on without it; `Instruction.step_eq_ok_iff` and `Instruction.step_eq_error_iff` say
that the plan records or refuses just that.
-/
namespace SchemaOverlay

open Sdl

namespace Sdl

def Definition.isType : Definition → Bool
  | .type .. | .extension _ => true
  | .schema _ | .directive _ => false

def Definition.withDirectives (uses : List Directive) : Definition → Definition
  | .schema s => .schema { s with directives := uses }
  | .type description node => .type description { node with directives := uses }
  | .extension node => .extension { node with directives := uses }
  | .directive d => .directive d

def Entry.directives : Entry → List Directive
  | .field f => f.directives
  | .inputValue v => v.directives
  | .enumValue v => v.directives
  | .directive _ | .namedType _ => []

def Entry.withDirectives (uses : List Directive) : Entry → Entry
  | .field f => .field { f with directives := uses }
  | .inputValue v => .inputValue { v with directives := uses }
  | .enumValue v => .enumValue { v with directives := uses }
  | .directive use => .directive use
  | .namedType n => .namedType n

namespace Site

/-- A direct member of a definition as an entry, and the collection that holds it. -/
def entry? : Site → Option (Collection × Entry)
  | .field _ f => some (.fields, .field f)
  | .inputValue _ v => some (.fields, .inputValue v)
  | .enumValue _ v => some (.values, .enumValue v)
  | .definition _ | .argument .. => none

def isType : Site → Bool
  | .definition d => d.isType
  | .field .. | .argument .. | .inputValue .. | .enumValue .. => false

/-- Whether the site is a direct member of a type definition or a type extension. -/
def isMember (s : Site) : Bool := s.entry?.isSome && s.owner.isType

theorem isMember_iff {s : Site} :
    s.isMember = true ↔ ∃ c e, s.entry? = some (c, e) ∧ s.owner.isType = true := by
  simp [isMember, Option.isSome_iff_exists]

theorem directives_of_entry? {s : Site} {c : Collection} {e : Entry}
    (entry : s.entry? = some (c, e)) : s.directives = e.directives := by
  cases s <;> cases entry <;> rfl

end Site

theorem Definition.of_isType {d : Definition} (type : d.isType = true) :
    ∃ node kind, Plan.typeNode? d = some node ∧ d.kind? = some kind ∧ d.name? = some node.name := by
  cases d with
  | schema s => cases type
  | type description node => exact ⟨node, _, rfl, rfl, rfl⟩
  | extension node => exact ⟨node, _, rfl, rfl, rfl⟩
  | directive definition => cases type

theorem Site.cases (s : Site) :
    (∃ d kind name, s = .definition d ∧ d.isType = true ∧ d.kind? = some kind ∧
      d.name? = some name) ∨
    (∃ c e kind name, s.entry? = some (c, e) ∧ s.isMember = true ∧ s.owner.kind? = some kind ∧
      s.owner.name? = some name) ∨
    (s.isType = false ∧ s.isMember = false) := by
  by_cases type : s.isType = true
  · cases s with
    | definition d =>
      obtain ⟨node, kind, _, known, named⟩ := Definition.of_isType type
      exact Or.inl ⟨d, kind, node.name, rfl, type, known, named⟩
    | _ => cases type
  · by_cases member : s.isMember = true
    · obtain ⟨c, e, entry, typed⟩ := isMember_iff.mp member
      obtain ⟨node, kind, _, known, named⟩ := Definition.of_isType typed
      exact Or.inr (Or.inl ⟨c, e, kind, node.name, entry, member, known, named⟩)
    · rw [Bool.not_eq_true] at type member
      exact Or.inr (Or.inr ⟨type, member⟩)

theorem Definition.typeNode?_of_not_isType {d : Definition} (other : d.isType = false) :
    Plan.typeNode? d = none := by
  cases d <;> first | rfl | cases other

theorem Definition.dropDirective_eq {d : Definition} (type : d.isType = true) (index : Nat) :
    Plan.dropDirective d index = d.withDirectives (d.directives.eraseIdx index) := by
  cases d <;> first | rfl | cases type

end Sdl

structure Instruction where
  action : Action
  use : Use

def Sdl.Use.instruction? (u : Use) : Option Instruction :=
  (Action.ofDirectiveName? u.directive.name).map (⟨·, u⟩)

theorem Sdl.Use.instruction?_eq_some_iff {u : Use} {i : Instruction} :
    u.instruction? = some i ↔
      Action.ofDirectiveName? u.directive.name = some i.action ∧ i.use = u := by
  obtain ⟨a, v⟩ := i
  simp only [instruction?, Option.map_eq_some_iff, Instruction.mk.injEq, eq_comm (a := u)]
  constructor
  · rintro ⟨b, named, rfl, rfl⟩
    exact ⟨named, rfl⟩
  · rintro ⟨named, rfl⟩
    exact ⟨a, named, rfl, rfl⟩

theorem Sdl.Use.instruction?_eq_none_iff {u : Use} :
    u.instruction? = none ↔ ∀ a : Action, u.directive.name ≠ a.directiveName := by
  rw [instruction?, Option.map_eq_none_iff, Option.eq_none_iff_forall_ne_some]
  simp only [ne_eq, Action.ofDirectiveName?_eq_some_iff]

namespace Instruction

variable {i : Instruction}

def site (i : Instruction) : Site := i.use.site

def Stands (i : Instruction) : Prop := i.site.directives[i.use.index]? = some i.use.directive

def step (i : Instruction) : Except OverlayError Step := Plan.stepAt i.action i.site i.use.index

inductive Refused (i : Instruction) : OverlayError → Prop
  | misplaced (notType : i.site.isType = false) (notMember : i.site.isMember = false) :
      Refused i (.invalidTarget i.action (Plan.describeSite i.site))
  | unsupported {c : Collection} {e : Entry} {name : Name} (member : i.site.isMember = true)
      (entry : i.site.entry? = some (c, e)) (named : i.site.owner.name? = some name)
      (action : i.action = .extend ∨ i.action = .exclude) :
      Refused i (.unsupportedOnMember i.action name e.name)

/-- The edit that is asked for: it holds what carries the directive, without that one use of it. -/
inductive AsksFor (i : Instruction) : Step → Prop
  | type {d : Definition} {kind : Kind} {name : Name} {before after : List Directive}
      (site : i.site = .definition d) (type : d.isType = true)
      (known : d.kind? = some kind) (named : d.name? = some name)
      (carried : d.directives = before ++ i.use.directive :: after)
      (index : before.length = i.use.index) :
      AsksFor i (.type ⟨i.action, d.withDirectives (before ++ after), kind, name⟩)
  | member {c : Collection} {e : Entry} {kind : Kind} {name : Name}
      {before after : List Directive}
      (entry : i.site.entry? = some (c, e)) (member : i.site.isMember = true)
      (known : i.site.owner.kind? = some kind) (named : i.site.owner.name? = some name)
      (action : i.action ∈ Action.memberPhases)
      (carried : e.directives = before ++ i.use.directive :: after)
      (index : before.length = i.use.index) :
      AsksFor i (.member ⟨i.action, e.withDirectives (before ++ after), kind.registry, c, name,
        Plan.carriesAction i.site.owner⟩)

theorem appliesToMembers_eq (a : Action) :
    a.appliesToMembers = false ↔ a = .extend ∨ a = .exclude := by
  cases a <;> decide

section Recorded

variable {d : Definition} {c : Collection} {e : Entry} {kind : Kind} {name : Name}

theorem step_of_misplaced (notType : i.site.isType = false)
    (notMember : i.site.isMember = false) :
    i.step = .error (.invalidTarget i.action (Plan.describeSite i.site)) := by
  unfold step
  generalize i.site = s at notType notMember
  by_cases type : s.owner.isType = true
  · -- The owner is a type, so neither the site itself nor a member of it is there.
    have vacant : s.entry? = none := by simpa [Site.isMember, type] using notMember
    cases s with
    | definition d => exact absurd type (Bool.eq_false_iff.mp notType)
    | argument d f v => cases d <;> rfl
    | field d f => cases vacant
    | inputValue d v => cases vacant
    | enumValue d v => cases vacant
  · have untyped := Definition.typeNode?_of_not_isType (Bool.not_eq_true _ ▸ type)
    simp only [Plan.stepAt, untyped]

theorem step_of_type (site : i.site = .definition d) (type : d.isType = true)
    (known : d.kind? = some kind) (named : d.name? = some name) :
    i.step = .ok (.type ⟨i.action, d.withDirectives (d.directives.eraseIdx i.use.index), kind,
      name⟩) := by
  obtain ⟨node, k, typed, known', named'⟩ := Definition.of_isType type
  cases known.symm.trans known'
  cases named.symm.trans named'
  simp only [step, site, Plan.stepAt, Site.owner, typed, known, Definition.dropDirective_eq type]

theorem step_of_member (entry : i.site.entry? = some (c, e)) (member : i.site.isMember = true)
    (known : i.site.owner.kind? = some kind) (named : i.site.owner.name? = some name) :
    i.step =
      if i.action.appliesToMembers then
        .ok (.member ⟨i.action, e.withDirectives (e.directives.eraseIdx i.use.index),
          kind.registry, c, name, Plan.carriesAction i.site.owner⟩)
      else .error (.unsupportedOnMember i.action name e.name) := by
  obtain ⟨_, _, _, type⟩ := Site.isMember_iff.mp member
  obtain ⟨node, k, typed, known', named'⟩ := Definition.of_isType type
  cases known.symm.trans known'
  cases named.symm.trans named'
  unfold step
  generalize i.site = s at *
  cases s <;> cases entry <;>
    simp only [Plan.stepAt, Site.owner, Site.member?] at typed known ⊢ <;>
    simp only [typed, known, Plan.memberStep] <;> rfl

theorem exists_eraseIdx {α : Type} {l : List α} {k : Nat} {a : α} (there : l[k]? = some a) :
    ∃ before after, l = before ++ a :: after ∧ before.length = k ∧
      l.eraseIdx k = before ++ after := by
  obtain ⟨inside, same⟩ := List.getElem?_eq_some_iff.mp there
  refine ⟨l.take k, l.drop (k + 1), ?_, ?_, List.eraseIdx_eq_take_drop_succ l k⟩
  · rw [← same, ← List.drop_eq_getElem_cons inside, List.take_append_drop]
  · rw [List.length_take, Nat.min_eq_left (Nat.le_of_lt inside)]

theorem eraseIdx_append_cons {α : Type} {before after : List α} {k : Nat} {a : α}
    (index : before.length = k) : (before ++ a :: after).eraseIdx k = before ++ after := by
  rw [List.eraseIdx_append_of_length_le (Nat.le_of_eq index)]
  simp [index]

/-- What is recorded for a directive is the edit it asks for. -/
theorem step_eq_ok_iff (stands : i.Stands) {s : Step} : i.step = .ok s ↔ i.AsksFor s := by
  constructor
  · intro recorded
    rcases i.site.cases with ⟨d, kind, name, site, type, known, named⟩ |
      ⟨c, e, kind, name, entry, member, known, named⟩ | ⟨notType, notMember⟩
    · rw [step_of_type site type known named] at recorded
      cases recorded
      rw [Stands, site] at stands
      obtain ⟨before, after, carried, index, erased⟩ := exists_eraseIdx stands
      rw [show d.directives.eraseIdx i.use.index = before ++ after from erased]
      exact .type site type known named carried index
    · rw [step_of_member entry member known named] at recorded
      split at recorded
      · rename_i applies
        cases recorded
        rw [Stands, Site.directives_of_entry? entry] at stands
        obtain ⟨before, after, carried, index, erased⟩ := exists_eraseIdx stands
        rw [erased]
        have action : i.action ∈ Action.memberPhases := by
          simpa [Action.appliesToMembers] using applies
        exact .member entry member known named action carried index
      · cases recorded
    · rw [step_of_misplaced notType notMember] at recorded
      cases recorded
  · intro asks
    cases asks with
    | type site type known named carried index =>
      rw [step_of_type site type known named, carried, eraseIdx_append_cons index]
    | member entry member known named action carried index =>
      have applies : i.action.appliesToMembers = true := by
        simpa [Action.appliesToMembers] using action
      rw [step_of_member entry member known named, if_pos applies, carried,
        eraseIdx_append_cons index]

/-- A directive is refused where it is misplaced, and on a member if no edit of members is of its
action. -/
theorem step_eq_error_iff {f : OverlayError} : i.step = .error f ↔ i.Refused f := by
  constructor
  · intro stopped
    rcases i.site.cases with ⟨d, kind, name, site, type, known, named⟩ |
      ⟨c, e, kind, name, entry, member, known, named⟩ | ⟨notType, notMember⟩
    · rw [step_of_type site type known named] at stopped
      cases stopped
    · rw [step_of_member entry member known named] at stopped
      split at stopped
      · cases stopped
      · rename_i applies
        cases stopped
        rw [Bool.not_eq_true] at applies
        exact .unsupported member entry named ((appliesToMembers_eq _).mp applies)
    · rw [step_of_misplaced notType notMember] at stopped
      cases stopped
      exact .misplaced notType notMember
  · intro refused
    cases refused with
    | misplaced notType notMember => exact step_of_misplaced notType notMember
    | unsupported member entry named action =>
      obtain ⟨_, _, _, typed⟩ := Site.isMember_iff.mp member
      obtain ⟨node, kind, _, known, _⟩ := Definition.of_isType typed
      have applies := (appliesToMembers_eq _).mpr action
      rw [step_of_member entry member known named, applies]
      rfl

end Recorded

end Instruction

end SchemaOverlay

import SchemaOverlay.Proofs.Edit.Algebra
import SchemaOverlay.Proofs.Edit.Refusal
import SchemaOverlay.Proofs.Overlay.Reload

/-!
What is needed to follow one run after another. The steps that edit what a place holds are calls on
the draft there, and a run of calls is followed on its lists and its skeleton. A catalog is what it
holds at each place together with the order of the names, so a run leaves a given catalog if it
makes that of each place and of the names.
-/
namespace SchemaOverlay

open Sdl

namespace Draft

variable {d d' : Draft} {node : Definition} {m : Move} {ms : List Move} {k : Collection}

def Move.onListOf (k : Collection) : Move → List Entry → List Entry
  | .edit c asked, l => if k = c then asked.onList l else l
  | .extend other, l => gathered l (other.listed k)
  | .exclude other, l => stripped l (other.listed k)

def Move.onSkeleton : Move → Definition → Definition
  | .extend other, skeleton => takeDescription skeleton other.description?
  | .edit _ _, skeleton | .exclude _, skeleton => skeleton

theorem Move.sound_edit (c : Collection) (asked : Edit) : (Move.edit c asked).Sound :=
  trivial

theorem move_of_attempt (done : d.attempt m = .ok d') : d.move m = d' := by
  cases m <;> simp only [attempt] at done <;> simp only [move, done, settle]

theorem reached_attempt (reached : ReachedFrom node d) (sound : m.Sound)
    (done : d.attempt m = .ok d') : ReachedFrom node d' :=
  move_of_attempt done ▸ reached.move sound

theorem listed_attempt (reached : ReachedFrom node d) (sound : m.Sound)
    (done : d.attempt m = .ok d') (k : Collection) :
    d'.listed k = m.onListOf k (d.listed k) := by
  have formed := reached.isOf.formed
  cases m with
  | edit c asked =>
    rw [Move.onListOf]
    split
    · rename_i here
      exact here ▸ listed_edit formed done
    · rename_i other
      obtain ⟨_, rfl⟩ := (edit_eq_ok_iff formed).mp done
      rw [listed_setHeld, if_neg (Ne.symm other)]
  | extend other =>
    obtain ⟨source, otherReached⟩ := sound
    exact listed_extendWith formed otherReached.isOf.formed done k
  | exclude other =>
    obtain ⟨source, otherReached⟩ := sound
    exact listed_excludeWith formed otherReached.isOf.formed done k

theorem skeleton_attempt (formed : d.WellFormed) (done : d.attempt m = .ok d') :
    d'.skeleton = m.onSkeleton d.skeleton := by
  cases m with
  | edit c asked =>
    obtain ⟨_, rfl⟩ := (edit_eq_ok_iff formed).mp done
    rfl
  | extend other => exact skeleton_extendWith done
  | exclude other =>
    obtain ⟨_, rfl⟩ := excludeWith_eq_ok_iff.mp done
    exact skeleton_shed d _

def attempts (ms : List Move) (d : Draft) : Except EditError Draft := ms.foldlM attempt d

theorem attempts_cons_ok :
    attempts (m :: ms) d = .ok d' ↔ ∃ mid, d.attempt m = .ok mid ∧ attempts ms mid = .ok d' := by
  rw [attempts, List.foldlM_cons]
  cases d.attempt m <;> simp [bind, Except.bind, attempts]

structure Follows (ms : List Move) (d d' : Draft) : Prop where
  reached : ∃ node, ReachedFrom node d'
  kind : d'.kind = d.kind
  listed : ∀ k, d'.listed k = ms.foldl (fun l m => m.onListOf k l) (d.listed k)
  skeleton : d'.skeleton = ms.foldl (fun s m => m.onSkeleton s) d.skeleton

theorem follows_of_attempts (reached : ReachedFrom node d) (sound : ∀ m ∈ ms, m.Sound)
    (done : attempts ms d = .ok d') : Follows ms d d' := by
  induction ms generalizing d with
  | nil =>
    cases done
    exact ⟨⟨node, reached⟩, rfl, fun _ => rfl, rfl⟩
  | cons m rest ih =>
    obtain ⟨mid, first, later⟩ := attempts_cons_ok.mp done
    have now := sound m List.mem_cons_self
    have next := reached_attempt reached now first
    have rest := ih next (fun m' member => sound m' (List.mem_cons_of_mem _ member)) later
    refine ⟨rest.reached, rest.kind.trans (reached.same_kind next), fun k => ?_, ?_⟩
    · rw [rest.listed, listed_attempt reached now first, List.foldl_cons]
    · rw [rest.skeleton, skeleton_attempt reached.isOf.formed first, List.foldl_cons]

end Draft

/-- The call that an edit of a member makes on the draft of its type. -/
def MemberEdit.asked (e : MemberEdit) : Edit :=
  match e.action with
  | .create => .create e.entry
  | .delete => .delete e.entry.name
  | .remove => .remove e.entry.name
  | .replace => .replace e.entry
  | .upsert | .exclude | .extend => .upsert e.entry

namespace Step

variable {s : Step} {steps : List Step} {d : Draft} {held : Option Draft}

def Amends : Step → Prop
  | .type e => e.action = .extend ∨ e.action = .exclude
  | .member _ => True

def move : Step → Draft.Move
  | .type e => if e.action = .exclude then .exclude e.incoming else .extend e.incoming
  | .member e => .edit e.collection e.asked

theorem move_sound (wf : s.WellFormed) : s.move.Sound := by
  cases s with
  | type e =>
    have reached := Draft.ReachedFrom.opened (Draft.ofDefinition_eq wf.kind wf.name)
    rw [move]
    split <;> exact ⟨e.definition, reached⟩
  | member e => exact trivial

theorem onPlace_some (wf : s.WellFormed) (amends : s.Amends) (d : Draft) :
    s.onPlace (some d) = (some <$> d.attempt s.move).mapError .edit := by
  cases s with
  | type e =>
    rcases amends with act | act <;>
      simp only [onPlace, TypeEdit.onPlace, move, act, reduceCtorEq, ↓reduceIte] <;> rfl
  | member e =>
    have mapped : ∀ result : Except EditError Draft,
        some <$> result.mapError OverlayError.edit = (some <$> result).mapError .edit := by
      intro result
      cases result <;> rfl
    have phase := wf.action
    cases act : e.action <;> rw [act] at phase <;> first
      | exact absurd phase (by decide)
      | simp only [onPlace, MemberEdit.onPlace, MemberEdit.onDraft, move, MemberEdit.asked, act]
        exact mapped _

theorem onPlace_none (amends : s.Amends) : ¬ s.onPlace none = .ok held := by
  cases s with
  | type e =>
    rcases amends with act | act <;>
      simp [onPlace, TypeEdit.onPlace, act, Except.mapError]
  | member e => simp [onPlace, MemberEdit.onPlace]

end Step

def movesOf (steps : List Step) : List Draft.Move := steps.map Step.move

section Amending

variable {steps : List Step} {held left : Option Draft}

theorem onPlaceAll_some_iff (amend : ∀ s ∈ steps, s.WellFormed ∧ s.Amends) {d : Draft} :
    onPlaceAll steps (some d) = .ok left ↔
      ∃ d', Draft.attempts (movesOf steps) d = .ok d' ∧ left = some d' := by
  induction steps generalizing d with
  | nil =>
    constructor
    · rintro done
      cases done
      exact ⟨d, rfl, rfl⟩
    · rintro ⟨d', done, rfl⟩
      cases done
      rfl
  | cons s rest ih =>
    have later := fun d => ih (fun t member => amend t (List.mem_cons_of_mem _ member)) (d := d)
    obtain ⟨wf, amends⟩ := amend s List.mem_cons_self
    rw [onPlaceAll_cons, movesOf, List.map_cons, Step.onPlace_some wf amends]
    simp only [Draft.attempts_cons_ok]
    cases d.attempt s.move with
    | error e => simp [Functor.map, Except.map, Except.mapError, bind, Except.bind]
    | ok mid =>
      simp only [Except.ok.injEq, exists_eq_left']
      exact later mid

theorem cases_of_amends (amend : ∀ s ∈ steps, s.WellFormed ∧ s.Amends)
    (ran : onPlaceAll steps held = .ok left) :
    (steps = [] ∧ left = held) ∨
      ∃ d d', held = some d ∧ left = some d' ∧ Draft.attempts (movesOf steps) d = .ok d' := by
  cases held with
  | none =>
    cases steps with
    | nil =>
      cases ran
      exact Or.inl ⟨rfl, rfl⟩
    | cons s rest =>
      obtain ⟨_, first, _⟩ := onPlaceAll_cons_ok.mp ran
      exact absurd first (Step.onPlace_none (amend s List.mem_cons_self).2)
  | some d =>
    obtain ⟨d', done, rfl⟩ := (onPlaceAll_some_iff amend).mp ran
    exact Or.inr ⟨d, d', rfl, rfl, done⟩

end Amending

section Members

variable {edits : List MemberEdit} {k : Collection}

theorem amend_members (wf : ∀ e ∈ edits, e.WellFormed) :
    ∀ s ∈ edits.map Step.member, s.WellFormed ∧ s.Amends := by
  intro s member
  obtain ⟨e, listed, rfl⟩ := List.mem_map.mp member
  exact ⟨wf e listed, trivial⟩

def entriesIn (k : Collection) (edits : List MemberEdit) : List Entry :=
  (edits.filter (·.collection = k)).map (·.entry)

theorem foldl_onListOf_members {f : List Entry → Entry → List Entry}
    (each : ∀ e ∈ edits, ∀ l, e.asked.onList l = f l e.entry) (l : List Entry) :
    (movesOf (edits.map .member)).foldl (fun l m => m.onListOf k l) l =
      (entriesIn k edits).foldl f l := by
  induction edits generalizing l with
  | nil => rfl
  | cons e rest ih =>
    have later := ih fun e member => each e (List.mem_cons_of_mem _ member)
    rw [movesOf, List.map_cons, List.map_cons, List.foldl_cons, Step.move, Draft.Move.onListOf,
      entriesIn]
    by_cases here : e.collection = k
    · rw [if_pos here.symm, List.filter_cons_of_pos (by simpa using here), List.map_cons,
        List.foldl_cons, ← each e List.mem_cons_self]
      exact later _
    · rw [if_neg (Ne.symm here), List.filter_cons_of_neg (by simpa using here)]
      exact later l

theorem foldl_onSkeleton_members (edits : List MemberEdit) (skeleton : Definition) :
    (movesOf (edits.map .member)).foldl (fun s m => m.onSkeleton s) skeleton = skeleton := by
  induction edits with
  | nil => rfl
  | cons e rest ih => exact ih

end Members

namespace Catalog

theorem Filed.eq_of_places {cat cat' : Catalog} (filed : cat.Filed) (filed' : cat'.Filed)
    (names : ∀ r, cat'.names r = cat.names r) (places : ∀ r n, cat'.get? r n = cat.get? r n) :
    cat' = cat := by
  refine eq_of_registries fun r => Keyed.eq_of_pairs ?_
  have keys : (cat'.registry r).keys = (cat.registry r).keys := names r
  have found : ∀ n, (cat'.registry r).get? n = (cat.registry r).get? n := places r
  -- Any draft will do where nothing is filed: no name of the registry is such a place.
  cases held : (cat.registry r).pairs with
  | nil =>
    have none : (cat'.registry r).keys = [] := by rw [keys, Keyed.keys, held]; rfl
    exact List.map_eq_nil_iff.mp none
  | cons p rest =>
    rw [← held, Keyed.pairs_eq_map_keys (filed'.distinct r) p.2,
      Keyed.pairs_eq_map_keys (filed.distinct r) p.2, keys]
    exact List.map_congr_left fun n _ => by rw [found]

end Catalog

/-- A plan leaves a catalog if it makes what is there of each place, and the names of the names. -/
theorem Plan.outcome_of_target {p : Plan} (wf : p.WellFormed) {cat target : Catalog}
    (filed : cat.Filed) (targetFiled : target.Filed)
    (places : ∀ r n, onPlaceAll (stepsAt r n p.schedule) (cat.get? r n) = .ok (target.get? r n))
    (names : ∀ cat', p.outcome cat = .ok cat' → ∀ r, cat'.names r = target.names r) :
    p.outcome cat = .ok target := by
  obtain ⟨cat', ran⟩ := performAll_of_places wf.step cat fun r n => ⟨_, places r n⟩
  have outcome : p.outcome cat = .ok cat' := (outcome_eq wf cat).trans ran
  have filed' : cat'.Filed := filed.performAll wf.step ran
  have same : cat' = target := by
    refine targetFiled.eq_of_places filed' (names cat' outcome) fun r n => ?_
    have there := performAll_place wf.step ran r n
    rw [places r n] at there
    exact (Except.ok.inj there).symm
  rw [outcome, same]

end SchemaOverlay

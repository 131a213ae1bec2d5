import SchemaOverlay.Proofs.Overlay.Recording
import Mathlib.Data.List.Basic

/-!
The order of a run. The schedule of a plan is its edits of types and then its edits of members, each
list sorted by phase and otherwise left in the order of the document. Applying a plan takes the
steps of its schedule one after another, up to the first that is refused.
-/
namespace SchemaOverlay

open Sdl

section Phases

variable {α : Type} (phases : List Action) (action : α → Action) {k : Nat}

def noLater (x y : α) : Bool := phases.idxOf (action x) ≤ phases.idxOf (action y)

/-- Edits sorted by phase; those of one phase keep their order. -/
def inPhaseOrder (l : List α) : List α := l.mergeSort (noLater phases action)

def byPhase (l : List α) : List α := phases.flatMap fun a => l.filter (action · = a)

theorem noLater_trans (x y z : α) (first : noLater phases action x y = true)
    (second : noLater phases action y z = true) : noLater phases action x z = true := by
  simp only [noLater, decide_eq_true_eq] at *
  omega

theorem noLater_total (x y : α) :
    (noLater phases action x y || noLater phases action y x) = true := by
  simp only [noLater, Bool.or_eq_true, decide_eq_true_eq]
  omega

/-- The sort is stable: the edits of one action come in the order they had. -/
theorem filter_inPhaseOrder (a : Action) (l : List α) :
    (inPhaseOrder phases action l).filter (action · = a) = l.filter (action · = a) := by
  have level : (l.filter (action · = a)).Pairwise fun x y => noLater phases action x y = true := by
    apply List.pairwise_of_forall_mem_list
    intro x hx y hy
    have same : action x = action y := by
      simp only [List.mem_filter, decide_eq_true_eq] at hx hy
      rw [hx.2, hy.2]
    simp [noLater, same]
  have kept := (List.sublist_mergeSort (noLater_trans phases action) (noLater_total phases action)
    level List.filter_sublist).filter (action · = a)
  rw [List.filter_filter] at kept
  simp only [Bool.and_self] at kept
  exact (kept.eq_of_length ((List.mergeSort_perm l _).symm.filter _).length_eq).symm

theorem flatMap_filter_eq_nil {before : List Action} (early : ∀ b ∈ before, phases.idxOf b < k)
    {l : List α} (late : ∀ x ∈ l, k ≤ phases.idxOf (action x)) :
    (before.flatMap fun b => l.filter (action · = b)) = [] := by
  rw [List.flatMap_eq_nil_iff]
  intro b hb
  rw [List.filter_eq_nil_iff]
  intro x hx same
  have first := early b hb
  have second := late x hx
  simp only [decide_eq_true_eq] at same
  rw [same] at second
  omega

theorem byPhase_of_sorted (distinct : phases.Nodup) (l : List α)
    (listed : ∀ x ∈ l, action x ∈ phases)
    (sorted : l.Pairwise fun x y => noLater phases action x y = true) :
    byPhase phases action l = l := by
  induction l with
  | nil => simp [byPhase]
  | cons x rest ih =>
    obtain ⟨least, sorted⟩ := List.pairwise_cons.mp sorted
    have tail := ih (fun y member => listed y (List.mem_cons_of_mem _ member)) sorted
    -- The phases fall apart into those before the one of `x`, that one, and those after it.
    obtain ⟨before, after, split, fresh⟩ := List.eq_append_cons_of_mem (listed x (by simp))
    have place : phases.idxOf (action x) = before.length := by
      rw [split, List.idxOf_append_of_notMem fresh]
      simp
    have early : ∀ b ∈ before, phases.idxOf b < before.length := by
      intro b hb
      rw [split, List.idxOf_append_of_mem hb]
      exact List.idxOf_lt_length_of_mem hb
    have restLate : ∀ y ∈ rest, before.length ≤ phases.idxOf (action y) := by
      intro y hy
      have later := least y hy
      simp only [noLater, decide_eq_true_eq] at later
      omega
    have late : ∀ y ∈ x :: rest, before.length ≤ phases.idxOf (action y) := by
      intro y hy
      rcases List.mem_cons.mp hy with rfl | later
      · exact Nat.le_of_eq place.symm
      · exact restLate y later
    have skip : ∀ b ∈ after, (x :: rest).filter (action · = b) = rest.filter (action · = b) := by
      intro b hb
      rw [List.filter_cons_of_neg]
      rw [split] at distinct
      have apart := (List.nodup_cons.mp (List.nodup_append.mp distinct).2.1).1
      simp only [decide_eq_true_eq]
      rintro rfl
      exact apart hb
    have noneBefore := flatMap_filter_eq_nil phases action early late
    have noneLeft := flatMap_filter_eq_nil phases action early restLate
    simp only [byPhase, split, List.flatMap_append, List.flatMap_cons] at tail ⊢
    rw [noneLeft, List.nil_append] at tail
    rw [noneBefore, List.flatMap_congr skip, List.nil_append,
      List.filter_cons_of_pos (by simp), List.cons_append, tail]

theorem byPhase_eq (distinct : phases.Nodup) (l : List α)
    (listed : ∀ x ∈ l, action x ∈ phases) :
    byPhase phases action l = inPhaseOrder phases action l := by
  have sorted := List.pairwise_mergeSort (noLater_trans phases action)
    (noLater_total phases action) l
  have same : byPhase phases action (inPhaseOrder phases action l) = byPhase phases action l := by
    simp only [byPhase, filter_inPhaseOrder]
  rw [← same]
  apply byPhase_of_sorted phases action distinct _ _ sorted
  intro x member
  exact listed x (List.mem_mergeSort.mp member)

end Phases

def performAll (steps : List Step) (cat : Catalog) : Except OverlayError Catalog :=
  steps.foldlM (fun cat s => s.perform cat) cat

theorem performAll_cons (s : Step) (rest : List Step) (cat : Catalog) :
    performAll (s :: rest) cat = s.perform cat >>= performAll rest :=
  List.foldlM_cons

theorem performAll_append (first second : List Step) (cat : Catalog) :
    performAll (first ++ second) cat = performAll first cat >>= performAll second := by
  simp only [performAll, List.foldlM_append]
  rfl

theorem performAll_cons_ok {s : Step} {rest : List Step} {cat cat' : Catalog} :
    performAll (s :: rest) cat = .ok cat' ↔
      ∃ mid, s.perform cat = .ok mid ∧ performAll rest mid = .ok cat' := by
  rw [performAll_cons]
  cases s.perform cat <;> simp [bind, Except.bind]

theorem performAll_append_ok {first second : List Step} {cat cat' : Catalog} :
    performAll (first ++ second) cat = .ok cat' ↔
      ∃ mid, performAll first cat = .ok mid ∧ performAll second mid = .ok cat' := by
  rw [performAll_append]
  cases performAll first cat <;> simp [bind, Except.bind]

theorem performAll_error {steps : List Step} {cat : Catalog} {e : OverlayError}
    (stopped : performAll steps cat = .error e) :
    ∃ done s rest cat', steps = done ++ s :: rest ∧ performAll done cat = .ok cat' ∧
      s.perform cat' = .error e := by
  induction steps generalizing cat with
  | nil => cases stopped
  | cons s rest ih =>
    cases first : s.perform cat with
    | error f =>
      rw [performAll_cons, first] at stopped
      cases stopped
      exact ⟨[], s, rest, cat, rfl, rfl, first⟩
    | ok mid =>
      rw [performAll_cons, first] at stopped
      obtain ⟨done, t, after, cat', split, ran, refused⟩ := ih stopped
      exact ⟨s :: done, t, after, cat', by rw [split, List.cons_append],
        performAll_cons_ok.mpr ⟨mid, first, ran⟩, refused⟩

def takeAll (steps : List Step) (p : Progress) : Except OverlayError PUnit × Progress :=
  (forM steps Step.take : Run PUnit).run.run p

theorem Step.take_run (s : Step) (cat : Catalog) (tried : List Step) :
    s.take.run.run ⟨cat, tried⟩ =
      match s.perform cat with
      | .ok mid => (.ok ⟨⟩, ⟨mid, tried ++ [s]⟩)
      | .error e => (.error e, ⟨cat, tried ++ [s]⟩) := by
  change (match s.perform cat with
    | .ok mid => (modify fun p : Progress => { p with catalog := mid } : Run PUnit)
    | .error e => (throw e : Run PUnit)).run.run ⟨cat, tried ++ [s]⟩ = _
  cases s.perform cat <;> rfl

theorem takeAll_cons (s : Step) (rest : List Step) (cat : Catalog) (tried : List Step) :
    takeAll (s :: rest) ⟨cat, tried⟩ =
      match s.perform cat with
      | .ok mid => takeAll rest ⟨mid, tried ++ [s]⟩
      | .error e => (.error e, ⟨cat, tried ++ [s]⟩) := by
  rw [takeAll, List.forM_cons, ExceptT.run_bind, StateT.run_bind, Step.take_run]
  cases s.perform cat <;> rfl

theorem takeAll_append {done : List Step} {cat cat' : Catalog}
    (ran : performAll done cat = .ok cat') (rest tried : List Step) :
    takeAll (done ++ rest) ⟨cat, tried⟩ = takeAll rest ⟨cat', tried ++ done⟩ := by
  induction done generalizing cat tried with
  | nil =>
    cases ran
    simp
  | cons s done ih =>
    obtain ⟨mid, first, later⟩ := performAll_cons_ok.mp ran
    rw [List.cons_append, takeAll_cons, first]
    simp only [ih later, List.append_assoc, List.singleton_append]

theorem takeAll_ok {steps : List Step} {cat cat' : Catalog}
    (ran : performAll steps cat = .ok cat') (tried : List Step) :
    takeAll steps ⟨cat, tried⟩ = (.ok ⟨⟩, ⟨cat', tried ++ steps⟩) := by
  have whole := takeAll_append ran [] tried
  rw [List.append_nil] at whole
  rw [whole]
  rfl

theorem takeAll_error {done : List Step} {s : Step} {cat cat' : Catalog} {e : OverlayError}
    (ran : performAll done cat = .ok cat') (refused : s.perform cat' = .error e)
    (rest tried : List Step) :
    takeAll (done ++ s :: rest) ⟨cat, tried⟩ = (.error e, ⟨cat', tried ++ done ++ [s]⟩) := by
  rw [takeAll_append ran, takeAll_cons, refused]

namespace Plan

/-- The steps of a plan in the order in which they are taken: the edits of types before those of
members, each phase after phase, and in the order of the document within a phase. -/
def schedule (p : Plan) : List Step :=
  (inPhaseOrder Action.typePhases TypeEdit.action p.typeEdits).map .type ++
    (inPhaseOrder Action.memberPhases MemberEdit.action p.memberEdits).map .member

theorem schedule_perm (p : Plan) :
    p.schedule.Perm (p.typeEdits.map .type ++ p.memberEdits.map .member) :=
  ((List.mergeSort_perm _ _).map _).append ((List.mergeSort_perm _ _).map _)

theorem schedule_eq {p : Plan} (wf : p.WellFormed) :
    p.schedule =
      (byPhase Action.typePhases TypeEdit.action p.typeEdits).map .type ++
        (byPhase Action.memberPhases MemberEdit.action p.memberEdits).map .member := by
  have types : ∀ e ∈ p.typeEdits, e.action ∈ Action.typePhases := by
    intro e _
    cases e.action <;> decide
  rw [byPhase_eq _ _ (by decide) _ types,
    byPhase_eq _ _ (by decide) _ fun e member => (wf.memberEdits e member).action]
  rfl

theorem applyTo_eq_takeAll (p : Plan) (cat : Catalog) :
    p.applyTo cat =
      takeAll ((byPhase Action.typePhases TypeEdit.action p.typeEdits).map .type ++
        (byPhase Action.memberPhases MemberEdit.action p.memberEdits).map .member) ⟨cat, []⟩ := by
  simp only [applyTo, apply, takeAll, byPhase, List.forM_append, List.forM_map, forM_flatMap,
    List.forM_eq_forM]

theorem applyTo_eq {p : Plan} (wf : p.WellFormed) (cat : Catalog) :
    p.applyTo cat = takeAll p.schedule ⟨cat, []⟩ := by
  rw [applyTo_eq_takeAll, schedule_eq wf]

theorem applyTo_eq_ok_iff {p : Plan} (wf : p.WellFormed) {cat cat' : Catalog}
    {tried : List Step} :
    p.applyTo cat = (.ok ⟨⟩, ⟨cat', tried⟩) ↔
      performAll p.schedule cat = .ok cat' ∧ tried = p.schedule := by
  rw [applyTo_eq wf]
  constructor
  · intro ended
    cases ran : performAll p.schedule cat with
    | ok mid =>
      rw [takeAll_ok ran] at ended
      cases ended
      simp
    | error e =>
      obtain ⟨done, s, rest, mid, split, before, refused⟩ := performAll_error ran
      rw [split, takeAll_error before refused] at ended
      cases ended
  · rintro ⟨ran, rfl⟩
    exact takeAll_ok ran []

theorem applyTo_eq_error_iff {p : Plan} (wf : p.WellFormed) {cat cat' : Catalog}
    {tried : List Step} {e : OverlayError} :
    p.applyTo cat = (.error e, ⟨cat', tried⟩) ↔
      ∃ done s rest, p.schedule = done ++ s :: rest ∧ tried = done ++ [s] ∧
        performAll done cat = .ok cat' ∧ s.perform cat' = .error e := by
  rw [applyTo_eq wf]
  constructor
  · intro ended
    cases ran : performAll p.schedule cat with
    | ok mid =>
      rw [takeAll_ok ran] at ended
      cases ended
    | error f =>
      obtain ⟨done, s, rest, mid, split, before, refused⟩ := performAll_error ran
      rw [split, takeAll_error before refused] at ended
      cases ended
      exact ⟨done, s, rest, split, rfl, before, refused⟩
  · rintro ⟨done, s, rest, split, rfl, before, refused⟩
    rw [split]
    exact takeAll_error before refused rest []

/-- What a plan makes of a catalog, or the refusal that ends its run. -/
def outcome (p : Plan) (cat : Catalog) : Except OverlayError Catalog :=
  (p.applyTo cat).1.map fun _ => (p.applyTo cat).2.catalog

theorem outcome_eq {p : Plan} (wf : p.WellFormed) (cat : Catalog) :
    p.outcome cat = performAll p.schedule cat := by
  cases ran : performAll p.schedule cat with
  | ok cat' =>
    rw [outcome, (applyTo_eq_ok_iff wf).mpr ⟨ran, rfl⟩]
    rfl
  | error e =>
    obtain ⟨done, s, rest, mid, split, before, refused⟩ := performAll_error ran
    rw [outcome, (applyTo_eq_error_iff wf).mpr ⟨done, s, rest, split, rfl, before, refused⟩]
    rfl

/-- Applying a plan takes the steps of its schedule one by one. It succeeds when all of them do, and
then leaves what the last one left; otherwise it ends with the first refusal and leaves what the
steps before it left. So two plans that agree phase by phase do the same to every catalog, however
the phases are interleaved in the documents. -/
theorem applyTo_follows_schedule {overrides : Document} {p : Plan}
    (planned : ofDocument overrides = .ok p) :
    p.schedule.Perm (p.typeEdits.map .type ++ p.memberEdits.map .member) ∧
    (∀ cat cat' tried, p.applyTo cat = (.ok ⟨⟩, ⟨cat', tried⟩) ↔
      performAll p.schedule cat = .ok cat' ∧ tried = p.schedule) ∧
    (∀ cat cat' tried e, p.applyTo cat = (.error e, ⟨cat', tried⟩) ↔
      ∃ done s rest, p.schedule = done ++ s :: rest ∧ tried = done ++ [s] ∧
        performAll done cat = .ok cat' ∧ s.perform cat' = .error e) ∧
    ∀ others q, ofDocument others = .ok q →
      (∀ a ∈ Action.typePhases,
        q.typeEdits.filter (·.action = a) = p.typeEdits.filter (·.action = a)) →
      (∀ a ∈ Action.memberPhases,
        q.memberEdits.filter (·.action = a) = p.memberEdits.filter (·.action = a)) →
      ∀ cat, q.applyTo cat = p.applyTo cat := by
  have wf := ofDocument_wellFormed planned
  refine ⟨p.schedule_perm, fun cat cat' tried => applyTo_eq_ok_iff wf,
    fun cat cat' tried e => applyTo_eq_error_iff wf, ?_⟩
  intro others q _ types members cat
  rw [applyTo_eq_takeAll, applyTo_eq_takeAll, byPhase, byPhase, List.flatMap_congr types,
    List.flatMap_congr members]
  rfl

end Plan

def stringField (name : Name) (uses : List Name) : Field :=
  ⟨none, name, [], .named "String", uses.map (⟨·, []⟩)⟩

def objectOf (name : Name) (uses : List Name) (fields : List (Name × List Name)) : Definition :=
  .type none ⟨name, uses.map (⟨·, []⟩), .object [] (fields.map fun (f, on) => stringField f on)⟩

namespace Plan

def bodyFirst : Document := ⟨[
  objectOf "Post" [] [("body", ["create"])],
  objectOf "Post" ["extend"] [("title", [])],
  objectOf "Post" ["create"] [("id", [])]]⟩

def bodyLast : Document := ⟨bodyFirst.definitions.reverse⟩

def postEdit (a : Action) (field : Name) : TypeEdit :=
  ⟨a, objectOf "Post" [] [(field, [])], .type .object, "Post"⟩

def bodyEdit : MemberEdit :=
  ⟨.create, .field (stringField "body" []), .definitions, .fields, "Post", false⟩

theorem applyTo_follows_schedule_bodyFirst :
    ofDocument bodyFirst = .ok ⟨[postEdit .extend "title", postEdit .create "id"], [bodyEdit]⟩ ∧
    ofDocument bodyLast = .ok ⟨[postEdit .create "id", postEdit .extend "title"], [bodyEdit]⟩ ∧
    ∀ cat, applyTo ⟨[postEdit .extend "title", postEdit .create "id"], [bodyEdit]⟩ cat =
      applyTo ⟨[postEdit .create "id", postEdit .extend "title"], [bodyEdit]⟩ cat := by
  have first : ofDocument bodyFirst =
      .ok ⟨[postEdit .extend "title", postEdit .create "id"], [bodyEdit]⟩ := rfl
  have last : ofDocument bodyLast =
      .ok ⟨[postEdit .create "id", postEdit .extend "title"], [bodyEdit]⟩ := rfl
  obtain ⟨_, _, _, same⟩ := applyTo_follows_schedule last
  refine ⟨first, last, same _ _ first ?_ fun _ _ => rfl⟩
  intro a _
  cases a <;> rfl

end Plan

end SchemaOverlay

import SchemaOverlay.Proofs.Overlay.Classification
import SchemaOverlay.Proofs.Overlay.Replay
import SchemaOverlay.Proofs.Sdl.Relabel

/-!
Creations and the removals that take them back. A plan that only creates types, or only creates
members, is undone by the plan that the same document makes with each creation a removal instead:
what was created came last, so taking it away in any order leaves what was there.
-/
namespace SchemaOverlay

open Sdl

section Lists

variable {l m : List Entry} {e : Entry}

theorem discard_between (distinct : (names (l ++ e :: m)).Nodup) :
    Edit.discard e.name (l ++ e :: m) = l ++ m := by
  rw [names, List.map_append, List.map_cons, List.nodup_middle, List.nodup_cons] at distinct
  have others : ∀ x ∈ l ++ m, x.name ≠ e.name := fun x inside same => by
    refine distinct.1 ?_
    rw [← List.map_append, ← same]
    exact List.mem_map_of_mem inside
  have kept : ∀ k : List Entry, (∀ x ∈ k, x.name ≠ e.name) →
      k.filter (fun x => decide (x.name ≠ e.name)) = k :=
    fun k apart => List.filter_eq_self.mpr fun x inside => decide_eq_true (apart x inside)
  rw [Edit.discard, List.filter_append, List.filter_cons_of_neg (by simp),
    kept l fun x inside => others x (List.mem_append_left _ inside),
    kept m fun x inside => others x (List.mem_append_right _ inside)]

theorem foldl_append_singleton (es l : List Entry) :
    es.foldl (fun l e => l ++ [e]) l = l ++ es := by
  induction es generalizing l with
  | nil => simp
  | cons e rest ih => rw [List.foldl_cons, ih, List.append_assoc, List.singleton_append]

end Lists

structure TypeEdit.Undoes (e f : TypeEdit) : Prop where
  creates : e.action = .create
  removes : f.action = .remove
  kind : f.kind = e.kind
  name : f.name = e.name

theorem TypeEdit.Undoes.sameRegistry {e f : TypeEdit} (undo : e.Undoes f) :
    f.registry = e.registry :=
  congrArg Kind.registry undo.kind

structure MemberEdit.Undoes (e f : MemberEdit) : Prop where
  creates : e.action = .create
  removes : f.action = .remove
  registry : f.registry = e.registry
  collection : f.collection = e.collection
  typeName : f.typeName = e.typeName
  name : f.entry.name = e.entry.name

section Types

variable {es fs : List TypeEdit} {held left : Option Draft}

theorem TypeEdit.onPlace_create {e : TypeEdit} (creates : e.action = .create)
    (made : (Step.type e).onPlace held = .ok left) : held = none ∧ left = some e.incoming := by
  cases held with
  | none =>
    simp only [Step.onPlace, TypeEdit.onPlace, creates, Except.mapError, Except.ok.injEq] at made
    exact ⟨rfl, made.symm⟩
  | some d => simp [Step.onPlace, TypeEdit.onPlace, creates, Except.mapError] at made

theorem onPlaceAll_typeRemovals (undoes : List.Forall₂ TypeEdit.Undoes es fs)
    (ran : onPlaceAll (es.map .type) held = .ok left) :
    onPlaceAll (fs.map .type) left = .ok held := by
  cases undoes with
  | nil =>
    cases ran
    rfl
  | @cons e f es fs undo rest =>
    obtain ⟨mid, first, later⟩ := onPlaceAll_cons_ok.mp ran
    obtain ⟨rfl, rfl⟩ := TypeEdit.onPlace_create undo.creates first
    cases rest with
    | nil =>
      cases later
      simp [onPlaceAll, Step.onPlace, TypeEdit.onPlace, undo.removes, Except.mapError]
    | cons again _ =>
      obtain ⟨_, second, _⟩ := onPlaceAll_cons_ok.mp later
      exact absurd (TypeEdit.onPlace_create again.creates second).1 (by simp)

end Types

section Members

variable {es fs : List MemberEdit} {d d' : Draft} {node : Definition}

theorem movesOf_members_cons (e : MemberEdit) (rest : List MemberEdit) :
    movesOf ((e :: rest).map .member) =
      .edit e.collection e.asked :: movesOf (rest.map .member) :=
  rfl

theorem supports_of_attempts (reached : Draft.ReachedFrom node d)
    (done : Draft.attempts (movesOf (es.map .member)) d = .ok d') :
    ∀ e ∈ es, d.supports e.collection = true := by
  induction es generalizing d with
  | nil => exact fun _ member => nomatch member
  | cons e rest ih =>
    rw [movesOf_members_cons] at done
    obtain ⟨mid, first, later⟩ := Draft.attempts_cons_ok.mp done
    have next := Draft.reached_attempt reached (Draft.Move.sound_edit ..) first
    have same : mid.kind = d.kind := reached.same_kind next
    intro t member
    rcases List.mem_cons.mp member with rfl | below
    · have accepted := ((Draft.edit_eq_ok_iff reached.isOf.formed).mp first).1
      simp only [Edit.accepted, Bool.and_eq_true] at accepted
      exact accepted.1.1
    · have supported := ih next later t below
      rwa [Draft.supports, same] at supported

theorem entriesIn_cons_self (e : MemberEdit) (es : List MemberEdit) :
    entriesIn e.collection (e :: es) = e.entry :: entriesIn e.collection es := by
  rw [entriesIn, List.filter_cons_of_pos (by simp), List.map_cons]
  rfl

theorem entriesIn_cons_of_ne {e : MemberEdit} {k : Collection} (other : k ≠ e.collection)
    (es : List MemberEdit) : entriesIn k (e :: es) = entriesIn k es := by
  rw [entriesIn, List.filter_cons_of_neg (by simpa using Ne.symm other)]
  rfl

theorem exists_removal (reached : Draft.ReachedFrom node d) {base : Collection → List Entry}
    {e : MemberEdit} (listed : ∀ k, d.listed k = base k ++ entriesIn k (e :: es))
    (supported : d.supports e.collection = true) :
    ∃ mid, d.attempt (.edit e.collection (.remove e.entry.name)) = .ok mid ∧
      ∀ k, mid.listed k = base k ++ entriesIn k es := by
  have formed := reached.isOf.formed
  have here := listed e.collection
  rw [entriesIn_cons_self] at here
  have present : e.entry.name ∈ names (d.listed e.collection) := by
    rw [here]
    exact List.mem_map_of_mem (by simp)
  have accepted : (Edit.remove e.entry.name).accepted d.kind e.collection
      (d.listed e.collection) = true := by
    have supports : d.kind.supports e.collection = true := supported
    simp [Edit.accepted, Edit.entry?, Edit.suits, supports, present]
  obtain ⟨mid, done⟩ : ∃ mid, d.attempt (.edit e.collection (.remove e.entry.name)) = .ok mid :=
    ⟨_, (Draft.edit_eq_ok_iff formed).mpr ⟨accepted, rfl⟩⟩
  refine ⟨mid, done, fun k => ?_⟩
  rw [Draft.listed_attempt reached (Draft.Move.sound_edit ..) done k, Draft.Move.onListOf]
  by_cases same : k = e.collection
  · subst same
    have distinct := Draft.names_listed_nodup formed e.collection
    rw [here] at distinct
    rw [if_pos rfl, Edit.onList, here, discard_between distinct]
  · rw [if_neg same, listed, entriesIn_cons_of_ne same]

theorem exists_removals (undoes : List.Forall₂ MemberEdit.Undoes es fs)
    (reached : Draft.ReachedFrom node d) {base : Collection → List Entry}
    (listed : ∀ k, d.listed k = base k ++ entriesIn k es)
    (supported : ∀ e ∈ es, d.supports e.collection = true) :
    ∃ d', Draft.attempts (movesOf (fs.map .member)) d = .ok d' ∧ ∀ k, d'.listed k = base k := by
  induction undoes generalizing d with
  | nil => exact ⟨d, rfl, fun k => (listed k).trans (List.append_nil _)⟩
  | @cons e f es fs undo _ ih =>
    obtain ⟨mid, first, without⟩ := exists_removal reached listed (supported e List.mem_cons_self)
    have next := Draft.reached_attempt reached (Draft.Move.sound_edit ..) first
    have kind : mid.kind = d.kind := reached.same_kind next
    obtain ⟨d', later, back⟩ := ih next without fun t member => by
      have supports := supported t (List.mem_cons_of_mem _ member)
      rwa [Draft.supports, kind]
    have asked : f.asked = .remove e.entry.name := by
      rw [MemberEdit.asked, undo.removes, ← undo.name]
    refine ⟨d', ?_, back⟩
    rw [movesOf_members_cons, undo.collection, asked]
    exact Draft.attempts_cons_ok.mpr ⟨mid, first, later⟩

/-- What was created in a draft may be removed again, and then the draft is as it was. -/
theorem attempts_removals (undoes : List.Forall₂ MemberEdit.Undoes es fs)
    (reached : Draft.ReachedFrom node d)
    (done : Draft.attempts (movesOf (es.map .member)) d = .ok d') :
    Draft.attempts (movesOf (fs.map .member)) d' = .ok d := by
  have sound : ∀ edits : List MemberEdit, ∀ m ∈ movesOf (edits.map .member), m.Sound := by
    intro edits m member
    obtain ⟨s, listed, rfl⟩ := List.mem_map.mp member
    obtain ⟨e, _, rfl⟩ := List.mem_map.mp listed
    exact trivial
  have creates : ∀ e ∈ es, ∀ l, e.asked.onList l = l ++ [e.entry] := by
    intro e member l
    obtain ⟨f, _, undo⟩ := exists_of_mem_of_forall₂ undoes member
    rw [MemberEdit.asked, undo.creates]
    rfl
  have first := Draft.follows_of_attempts reached (sound es) done
  obtain ⟨node', reached'⟩ := first.reached
  have listed : ∀ k, d'.listed k = d.listed k ++ entriesIn k es := fun k => by
    rw [first.listed, foldl_onListOf_members (f := fun l e => l ++ [e]) creates,
      foldl_append_singleton]
  have supported : ∀ e ∈ es, d'.supports e.collection = true := fun e member => by
    rw [Draft.supports, first.kind]
    exact supports_of_attempts reached done e member
  obtain ⟨d'', again, back⟩ := exists_removals undoes reached' listed supported
  have second := Draft.follows_of_attempts reached' (sound fs) again
  obtain ⟨node'', reached''⟩ := second.reached
  have skeleton : d''.skeleton = d.skeleton := by
    rw [second.skeleton, first.skeleton, foldl_onSkeleton_members, foldl_onSkeleton_members]
  rw [again, reached.isOf.formed.eq_of_listed reached''.isOf.formed skeleton back]

theorem onPlaceAll_memberRemovals (undoes : List.Forall₂ MemberEdit.Undoes es fs)
    (wf : ∀ e ∈ es, e.WellFormed) (wf' : ∀ f ∈ fs, f.WellFormed) {held left : Option Draft}
    (reached : ∀ d, held = some d → ∃ node, Draft.ReachedFrom node d)
    (ran : onPlaceAll (es.map .member) held = .ok left) :
    onPlaceAll (fs.map .member) left = .ok held := by
  rcases cases_of_amends (amend_members wf) ran with ⟨none, rfl⟩ | ⟨d, d', rfl, rfl, done⟩
  · rw [List.map_eq_nil_iff.mp none] at undoes
    rw [List.forall₂_nil_left_iff.mp undoes]
    rfl
  · obtain ⟨node, reached⟩ := reached d rfl
    exact (onPlaceAll_some_iff (amend_members wf')).mpr
      ⟨d, attempts_removals undoes reached done, rfl⟩

end Members

namespace Plan

variable {p q : Plan}

structure Undoes (p q : Plan) : Prop where
  types : List.Forall₂ TypeEdit.Undoes p.typeEdits q.typeEdits
  members : List.Forall₂ MemberEdit.Undoes p.memberEdits q.memberEdits
  uniform : p.typeEdits = [] ∨ p.memberEdits = []

theorem byPhase_of_action {α : Type} {phases : List Action} {action : α → Action} {l : List α}
    {a : Action} (distinct : phases.Nodup) (listed : a ∈ phases) (same : ∀ x ∈ l, action x = a) :
    byPhase phases action l = l := by
  refine byPhase_of_sorted phases action distinct l (fun x member => same x member ▸ listed) ?_
  refine List.pairwise_of_forall_mem_list fun x hx y hy => ?_
  simp [noLater, same x hx, same y hy]

theorem schedule_of_action (wf : p.WellFormed) {a : Action} (member : a ∈ Action.memberPhases)
    (types : ∀ e ∈ p.typeEdits, e.action = a) (members : ∀ e ∈ p.memberEdits, e.action = a) :
    p.schedule = p.typeEdits.map .type ++ p.memberEdits.map .member := by
  have phase : a ∈ Action.typePhases := by
    revert member
    cases a <;> decide
  rw [schedule_eq wf, byPhase_of_action (by decide) phase types,
    byPhase_of_action (by decide) member members]

namespace Undoes

theorem creates (undoes : p.Undoes q) : ∀ e ∈ p.typeEdits, e.action = .create := by
  intro e member
  obtain ⟨f, _, undo⟩ := exists_of_mem_of_forall₂ undoes.types member
  exact undo.creates

theorem removes (undoes : p.Undoes q) : ∀ f ∈ q.typeEdits, f.action = .remove := by
  intro f member
  obtain ⟨e, _, undo⟩ := exists_of_mem_of_forall₂ undoes.types.flip member
  exact undo.removes

theorem created (undoes : p.Undoes q) (wf : p.WellFormed) :
    p.schedule = p.typeEdits.map .type ++ p.memberEdits.map .member := by
  refine schedule_of_action wf (a := .create) (by decide) undoes.creates fun e member => ?_
  obtain ⟨f, _, undo⟩ := exists_of_mem_of_forall₂ undoes.members member
  exact undo.creates

theorem removed (undoes : p.Undoes q) (wf : q.WellFormed) :
    q.schedule = q.typeEdits.map .type ++ q.memberEdits.map .member := by
  refine schedule_of_action wf (a := .remove) (by decide) undoes.removes fun f member => ?_
  obtain ⟨e, _, undo⟩ := exists_of_mem_of_forall₂ undoes.members.flip member
  exact undo.removes

theorem onlyAt (undoes : p.Undoes q) (r : Registry) (n : Name) :
    (p.onlyAt r n).Undoes (q.onlyAt r n) where
  types := by
    refine List.rel_filter (fun e f undo => ?_) undoes.types
    simp only [decide_eq_true_iff, undo.sameRegistry, undo.name]
  members := by
    refine List.rel_filter (fun e f undo => ?_) undoes.members
    simp only [decide_eq_true_iff, undo.registry, undo.typeName]
  uniform := undoes.uniform.imp (fun none => by rw [Plan.onlyAt, none]; rfl)
    fun none => by rw [Plan.onlyAt, none]; rfl

theorem onPlaceAll (undoes : p.Undoes q) (wf : p.WellFormed) (wf' : q.WellFormed)
    {held left : Option Draft} (reached : ∀ d, held = some d → ∃ node, Draft.ReachedFrom node d)
    (ran : SchemaOverlay.onPlaceAll p.schedule held = .ok left) :
    SchemaOverlay.onPlaceAll q.schedule left = .ok held := by
  rw [undoes.created wf] at ran
  rw [undoes.removed wf']
  rcases undoes.uniform with none | none
  · have types := undoes.types
    rw [none] at types ran
    rw [List.forall₂_nil_left_iff.mp types]
    exact onPlaceAll_memberRemovals undoes.members wf.memberEdits wf'.memberEdits reached ran
  · have members := undoes.members
    rw [none] at members ran
    rw [List.forall₂_nil_left_iff.mp members]
    rw [List.map_nil, List.append_nil] at ran ⊢
    exact onPlaceAll_typeRemovals undoes.types ran

theorem namesIn_eq (undoes : p.Undoes q) (r : Registry) :
    namesIn r q.typeEdits = namesIn r p.typeEdits := by
  have same : ∀ {es fs : List TypeEdit}, List.Forall₂ TypeEdit.Undoes es fs →
      namesIn r fs = namesIn r es := by
    intro es fs related
    induction related with
    | nil => rfl
    | @cons e f es fs undo _ ih =>
      rw [namesIn, namesIn] at ih ⊢
      by_cases here : e.registry = r
      · rw [List.filter_cons_of_pos (by simpa [undo.sameRegistry] using here),
          List.filter_cons_of_pos (by simpa using here), List.map_cons, List.map_cons, undo.name, ih]
      · rw [List.filter_cons_of_neg (by simpa [undo.sameRegistry] using here),
          List.filter_cons_of_neg (by simpa using here), ih]
  exact same undoes.types

theorem changes (undoes : p.Undoes q) (r : Registry) :
    p.dropped r = [] ∧ q.introduced r = [] ∧
      p.introduced r = namesIn r p.typeEdits ∧ q.dropped r = namesIn r p.typeEdits := by
  have fresh : ∀ a, a ≠ .create → p.ofAction a = [] := fun a other =>
    ofAction_eq_nil fun e member => undoes.creates e member ▸ Ne.symm other
  have gone : ∀ a, a ≠ .remove → q.ofAction a = [] := fun a other =>
    ofAction_eq_nil fun f member => undoes.removes f member ▸ Ne.symm other
  refine ⟨?_, ?_, ?_, ?_⟩
  · rw [dropped, fresh .delete (by decide), fresh .remove (by decide)]
    rfl
  · rw [introduced, gone .create (by decide), gone .upsert (by decide)]
    rfl
  · rw [introduced, ofAction_eq_self undoes.creates, fresh .upsert (by decide)]
    exact List.append_nil _
  · rw [dropped, ofAction_eq_self undoes.removes, gone .delete (by decide), undoes.namesIn_eq]
    rfl

theorem new_of_mem (undoes : p.Undoes q) (wf : p.WellFormed) {cat cat' : Catalog}
    (ran : p.outcome cat = .ok cat') {r : Registry} {n : Name}
    (member : n ∈ namesIn r p.typeEdits) : n ∉ cat.names r := by
  obtain ⟨e, inside, rfl⟩ := List.mem_map.mp member
  obtain ⟨listed, home⟩ := List.mem_filter.mp inside
  have here : e ∈ (p.onlyAt r e.name).typeEdits :=
    List.mem_filter.mpr ⟨listed, decide_eq_true ⟨of_decide_eq_true home, rfl⟩⟩
  have place := outcome_place wf ran r e.name
  rw [← schedule_onlyAt wf, (undoes.onlyAt r e.name).created (wf.onlyAt r e.name)] at place
  have types := (undoes.onlyAt r e.name).types
  cases first : (p.onlyAt r e.name).typeEdits with
  | nil =>
    rw [first] at here
    cases here
  | cons t rest =>
    rw [first] at place types
    obtain ⟨f, _, undo⟩ := exists_of_mem_of_forall₂ types List.mem_cons_self
    obtain ⟨mid, made, _⟩ := onPlaceAll_cons_ok.mp place
    exact Catalog.get?_eq_none_iff.mp (TypeEdit.onPlace_create undo.creates made).1

theorem names (undoes : p.Undoes q) (wf : p.WellFormed) (wf' : q.WellFormed)
    {cat cat' cat'' : Catalog} (ran : p.outcome cat = .ok cat')
    (back : q.outcome cat' = .ok cat'') (r : Registry) : cat''.names r = cat.names r := by
  obtain ⟨noneDropped, noneIntroduced, came, went⟩ := undoes.changes r
  have grown : cat'.names r = cat.names r ++
      (namesIn r p.typeEdits).eraseDups.filter fun n => decide (n ∉ cat.names r) := by
    rw [names_outcome wf ran, noneDropped, came]
    simp
  have own : (cat.names r).filter (fun n => decide (n ∉ namesIn r p.typeEdits)) = cat.names r :=
    List.filter_eq_self.mpr fun n there => decide_eq_true fun member =>
      undoes.new_of_mem wf ran member there
  have gone : ((namesIn r p.typeEdits).eraseDups.filter fun n => decide (n ∉ cat.names r)).filter
      (fun n => decide (n ∉ namesIn r p.typeEdits)) = [] := by
    refine List.filter_eq_nil_iff.mpr fun n inside => ?_
    simpa using List.mem_eraseDups.mp (List.mem_filter.mp inside).1
  rw [names_outcome wf' back, noneIntroduced, went, grown, List.filter_append, own, gone]
  simp

theorem outcome (undoes : p.Undoes q) (wf : p.WellFormed) (wf' : q.WellFormed)
    {cat cat' : Catalog} (filed : cat.Filed) (ran : p.outcome cat = .ok cat') :
    q.outcome cat' = .ok cat := by
  have filed' : cat'.Filed := filed.performAll wf.step ((outcome_eq wf cat).symm.trans ran)
  refine outcome_of_target wf' filed' filed (fun r n => ?_) fun _ => undoes.names wf wf' ran
  have first := outcome_place wf ran r n
  rw [← schedule_onlyAt wf] at first
  rw [← schedule_onlyAt wf']
  exact (undoes.onlyAt r n).onPlaceAll (wf.onlyAt r n) (wf'.onlyAt r n)
    (fun d found => (filed.get? found).reached) first

end Undoes

end Plan

/-- A removal in the place of a creation; any other directive as it is. -/
def undoing (use : Directive) : Directive :=
  if use.name = Action.create.directiveName then
    { use with name := Action.remove.directiveName }
  else use

namespace Sdl

section Sites

variable (f : Directive → Directive)

theorem Definition.isType_relabel (d : Definition) : (d.relabel f).isType = d.isType := by
  cases d <;> rfl

theorem Site.owner_relabel (s : Site) : (s.relabel f).owner = s.owner.relabel f := by
  cases s <;> rfl

theorem Site.isMember_relabel (s : Site) : (s.relabel f).isMember = s.isMember := by
  rw [isMember, isMember, owner_relabel, Definition.isType_relabel]
  cases s <;> rfl

theorem Site.isMember_of_isType {s : Site} (type : s.isType = true) : s.isMember = false := by
  cases s <;> first | rfl | cases type

theorem Site.entry?_relabel {s : Site} {c : Collection} {e : Entry}
    (entry : s.entry? = some (c, e)) :
    ∃ e', Site.entry? (s.relabel f) = some (c, e') ∧ e'.name = e.name := by
  cases s <;> cases entry <;> exact ⟨_, rfl, rfl⟩

theorem Entry.name_withDirectives (e : Entry) (uses : List Directive) :
    (e.withDirectives uses).name = e.name := by
  cases e <;> rfl

end Sites

end Sdl

namespace Instruction

variable {i : Instruction} {s : Step}

def undone (i : Instruction) : Instruction := ⟨.remove, i.use.relabel undoing⟩

theorem instruction?_relabel {u : Use}
    (creates : ∀ i, u.instruction? = some i → i.action = .create) :
    (u.relabel undoing).instruction? = u.instruction?.map undone := by
  cases asked : u.instruction? with
  | none =>
    have named : Action.ofDirectiveName? u.directive.name = none :=
      Option.map_eq_none_iff.mp asked
    have other : undoing u.directive = u.directive := by
      refine if_neg fun same => ?_
      rw [same, Action.ofDirectiveName?_directiveName] at named
      cases named
    rw [Use.instruction?, Use.relabel, other, named]
    rfl
  | some i =>
    obtain ⟨named, rfl⟩ := Use.instruction?_eq_some_iff.mp asked
    rw [creates i asked] at named
    have same : undoing i.use.directive =
        { i.use.directive with name := Action.remove.directiveName } :=
      if_pos (Action.ofDirectiveName?_eq_some_iff.mp named)
    rw [Option.map_some, Use.instruction?_eq_some_iff]
    refine ⟨?_, rfl⟩
    rw [Use.relabel, same]
    exact Action.ofDirectiveName?_directiveName .remove

theorem instructions_relabel {doc : Document}
    (creates : ∀ i ∈ doc.instructions, i.action = .create) :
    (doc.relabel undoing).instructions = doc.instructions.map undone := by
  rw [Document.instructions, Document.instructions, Document.uses_relabel, List.filterMap_map,
    List.map_filterMap]
  refine List.filterMap_congr fun u listed => instruction?_relabel fun i asked => ?_
  exact creates i (List.mem_filterMap.mpr ⟨u, listed, asked⟩)

theorem isMember_undone (i : Instruction) : i.undone.site.isMember = i.site.isMember :=
  Site.isMember_relabel undoing i.site

/-- The edit that takes back what an instruction asks to create. -/
def Takes (s t : Step) : Prop :=
  match s, t with
  | .type e, .type f => e.Undoes f
  | .member e, .member f => e.Undoes f
  | _, _ => False

theorem exists_step_undone (creates : i.action = .create) (asks : i.AsksFor s) :
    ∃ t, i.undone.step = .ok t ∧ Takes s t := by
  have owner : i.undone.site.owner = i.site.owner.relabel undoing :=
    Site.owner_relabel undoing i.site
  cases asks with
  | @type d kind name before after site type known named carried index =>
    have site' : i.undone.site = .definition (d.relabel undoing) :=
      congrArg (Site.relabel undoing) site
    refine ⟨_, step_of_type site' ((Definition.isType_relabel undoing d).trans type)
      ((Definition.kind?_relabel undoing d).trans known)
      ((Definition.name?_relabel undoing d).trans named), ?_⟩
    exact ⟨creates, rfl, rfl, rfl⟩
  | @member c e kind name before after entry member known named action carried index =>
    obtain ⟨e', entry', same⟩ := Site.entry?_relabel undoing entry
    have made := step_of_member (i := i.undone) entry' ((isMember_undone i).trans member)
      (owner ▸ (Definition.kind?_relabel undoing i.site.owner).trans known)
      (owner ▸ (Definition.name?_relabel undoing i.site.owner).trans named)
    have applies : i.undone.action.appliesToMembers = true := rfl
    rw [if_pos applies] at made
    refine ⟨_, made, creates, rfl, rfl, rfl, rfl, ?_⟩
    rw [Entry.name_withDirectives, Entry.name_withDirectives, same]

theorem exists_steps_undone {is : List Instruction} {steps : List Step}
    (creates : ∀ i ∈ is, i.action = .create) (asked : List.Forall₂ AsksFor is steps) :
    ∃ back, (is.map undone).mapM step = .ok back ∧ List.Forall₂ Takes steps back := by
  induction asked with
  | nil => exact ⟨[], rfl, .nil⟩
  | @cons i s is steps asks _ ih =>
    obtain ⟨t, made, takes⟩ := exists_step_undone (creates i List.mem_cons_self) asks
    obtain ⟨back, later, rest⟩ := ih fun j member => creates j (List.mem_cons_of_mem _ member)
    refine ⟨t :: back, ?_, .cons takes rest⟩
    rw [mapM_eq_ok_iff] at later ⊢
    exact .cons made later

end Instruction

namespace Plan

theorem undoes_ofSteps {steps back : List Step} (takes : List.Forall₂ Instruction.Takes steps back) :
    List.Forall₂ TypeEdit.Undoes (ofSteps steps).typeEdits (ofSteps back).typeEdits ∧
      List.Forall₂ MemberEdit.Undoes (ofSteps steps).memberEdits (ofSteps back).memberEdits := by
  induction takes with
  | nil => exact ⟨.nil, .nil⟩
  | @cons s t steps back take _ ih =>
    cases s <;> cases t
    · exact ⟨.cons take ih.1, ih.2⟩
    · exact take.elim
    · exact take.elim
    · exact ⟨ih.1, .cons take ih.2⟩

/-- All instructions stand on types, or all stand on members. -/
def Uniform (is : List Instruction) : Prop :=
  (∀ i ∈ is, i.site.isType = true) ∨ ∀ i ∈ is, i.site.isMember = true

theorem Uniform.isMember {is : List Instruction} (uniform : Uniform is) :
    (∀ i ∈ is, i.site.isMember = false) ∨ ∀ i ∈ is, i.site.isMember = true :=
  uniform.imp_left fun types i listed => Site.isMember_of_isType (types i listed)

theorem onMixed_of_uniform {doc : Document}
    (uniform : (∀ i ∈ doc.instructions, i.site.isMember = false) ∨
      ∀ i ∈ doc.instructions, i.site.isMember = true) :
    ∀ i ∈ doc.instructions, i.onMixed = false := by
  intro i listed
  rw [Instruction.onMixed]
  rcases uniform with none | all
  · rw [none i listed, Bool.false_and]
  · rw [all i listed, Bool.true_and, ← Bool.not_eq_true]
    intro carries
    obtain ⟨use, carried, action⟩ := carriesAction_iff.mp carries
    obtain ⟨inside, _⟩ := Document.owner_of_instruction listed
    have own : Site.definition i.site.owner ∈ i.site.owner.sites := by
      cases i.site.owner <;> simp [Definition.sites]
    obtain ⟨j, standing, there⟩ := Document.exists_instruction inside own carried action
    have member := all j standing
    rw [there] at member
    cases member

theorem uniform_ofSteps {is : List Instruction} {steps : List Step} (uniform : Uniform is)
    (asked : List.Forall₂ Instruction.AsksFor is steps) :
    (ofSteps steps).typeEdits = [] ∨ (ofSteps steps).memberEdits = [] := by
  refine uniform.symm.imp (fun members => ?_) fun types => ?_
  · refine List.filterMap_eq_nil_iff.mpr fun s member => ?_
    obtain ⟨i, listed, asks⟩ := exists_of_mem_of_forall₂ asked.flip member
    cases asks with
    | type site =>
      have below := members i listed
      rw [site] at below
      cases below
    | member => rfl
  · refine List.filterMap_eq_nil_iff.mpr fun s member => ?_
    obtain ⟨i, listed, asks⟩ := exists_of_mem_of_forall₂ asked.flip member
    cases asks with
    | type => rfl
    | member _ below =>
      cases below.symm.trans (Site.isMember_of_isType (types i listed))

/-- Where every action of a document is a creation, of types alone or of members alone, a run is
undone by the same document with each creation a removal: it succeeds on what the run left, and
gives back the catalog as it was, with the order of definitions and entries. -/
theorem creations_undone {overrides : Document} {p : Plan} (planned : ofDocument overrides = .ok p)
    (creates : ∀ i ∈ overrides.instructions, i.action = .create)
    (uniform : Uniform overrides.instructions) {cat cat' : Catalog} (reached : cat.Reached)
    (ran : p.outcome cat = .ok cat') :
    ∃ q, ofDocument (overrides.relabel undoing) = .ok q ∧ q.outcome cat' = .ok cat := by
  obtain ⟨_, _, steps, asked, rfl⟩ := ofDocument_of_ok planned
  obtain ⟨back, answered, takes⟩ := Instruction.exists_steps_undone creates asked
  have undone := Instruction.instructions_relabel creates
  rw [← undone] at answered
  have uniform' : (∀ i ∈ (overrides.relabel undoing).instructions, i.site.isMember = false) ∨
      ∀ i ∈ (overrides.relabel undoing).instructions, i.site.isMember = true := by
    simpa [undone, Instruction.isMember_undone] using uniform.isMember
  have removals := (ofDocument_of_steps answered).2 (onMixed_of_uniform uniform')
  obtain ⟨types, members⟩ := undoes_ofSteps takes
  have undoes : (ofSteps steps).Undoes (ofSteps back) :=
    ⟨types, members, uniform_ofSteps uniform asked⟩
  exact ⟨_, removals, undoes.outcome (ofDocument_wellFormed planned)
    (ofDocument_wellFormed removals) reached.filed ran⟩

def contacts : Document := ⟨[
  objectOf "User" [] [("email", ["create"]), ("phone", ["create"])],
  objectOf "User" [] [("age", ["create"])]]⟩

def contactsPlan : Plan where
  typeEdits := []
  memberEdits := ["email", "phone", "age"].map fun n =>
    ⟨.create, .field (stringField n []), .definitions, .fields, "User", false⟩

theorem creations_undone_contacts :
    ofDocument contacts = .ok contactsPlan ∧
    (∀ i ∈ contacts.instructions, i.action = .create) ∧ Uniform contacts.instructions ∧
    ∃ cat cat', Catalog.ofDocument Catalog.splitUser = .ok cat ∧
      contactsPlan.outcome cat = .ok cat' ∧
      (cat'.get? .definitions "User").map (fun d => names (d.listed .fields)) =
        some ["id", "name", "email", "phone", "age"] ∧
      ∃ q, ofDocument (contacts.relabel undoing) = .ok q ∧ q.outcome cat' = .ok cat := by
  have planned : ofDocument contacts = .ok contactsPlan := rfl
  have creates : ∀ i ∈ contacts.instructions, i.action = .create := by decide
  have uniform : Uniform contacts.instructions := .inr (by decide)
  have loaded : Catalog.ofDocument Catalog.splitUser = .ok _ := rfl
  exact ⟨planned, creates, uniform, _, _, loaded, rfl, rfl,
    creations_undone planned creates uniform (.ofDocument loaded) rfl⟩

end Plan

end SchemaOverlay

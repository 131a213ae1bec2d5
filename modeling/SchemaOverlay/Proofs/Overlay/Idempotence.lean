import SchemaOverlay.Proofs.Overlay.Replay

/-!
Plans that may be applied again. Where all edits of types upsert, delete or extend and all edits of
members upsert or delete, a second run leaves what the first one left. One step alone need not be
the identity there: an entry that is upserted and then deleted comes back and goes again. So the
lists that a run leaves are described as a whole, and such lists are left alone by a run.
-/
namespace SchemaOverlay

open Sdl

section Lists

variable {l : List Entry} {e : Entry} {es : List Entry} {ms : List (List Entry)} {ns : List Name}
  {n : Name}

def put (l : List Entry) (e : Entry) : List Entry := (Edit.upsert e).onList l

def updated (es : List Entry) (old : Entry) : Entry :=
  es.foldl (fun old e => if old.name = e.name then e else old) old

/-- A list that was extended, then upserted into, and then stripped of names. -/
def reworked (ms : List (List Entry)) (es : List Entry) (ns : List Name) (l : List Entry) :
    List Entry :=
  ns.foldl (fun l n => Edit.discard n l) (es.foldl put (ms.foldl gathered l))

theorem foldl_discard (ns : List Name) (l : List Entry) :
    ns.foldl (fun l n => Edit.discard n l) l = l.filter fun e => e.name ∉ ns := by
  induction ns generalizing l with
  | nil => simp
  | cons n rest ih =>
    rw [List.foldl_cons, ih, Edit.discard, List.filter_filter]
    refine List.filter_congr fun e _ => ?_
    simp [Bool.and_comm]

theorem updated_concat (es : List Entry) (e old : Entry) :
    updated (es ++ [e]) old = if (updated es old).name = e.name then e else updated es old := by
  rw [updated, List.foldl_append]
  rfl

theorem name_updated (es : List Entry) (old : Entry) : (updated es old).name = old.name := by
  induction es using List.reverseRecOn with
  | nil => rfl
  | append_singleton es e ih =>
    rw [updated_concat]
    split
    · rename_i same
      rw [← same, ih]
    · exact ih

theorem mem_overwrite {x : Entry} (member : x ∈ Edit.overwrite e l) :
    x = e ∨ x ∈ l ∧ x.name ≠ e.name := by
  obtain ⟨old, inside, rfl⟩ := List.mem_map.mp member
  by_cases same : old.name = e.name
  · exact Or.inl (if_pos same)
  · rw [if_neg same]
    exact Or.inr ⟨inside, same⟩

theorem mem_put {x : Entry} (member : x ∈ put l e) : x = e ∨ x ∈ l ∧ x.name ≠ e.name := by
  rw [put, Edit.onList] at member
  split at member
  · exact mem_overwrite member
  · rename_i absent
    rcases List.mem_append.mp member with inside | last
    · exact Or.inr ⟨inside, fun same => absent (same ▸ List.mem_map_of_mem inside)⟩
    · exact Or.inl (List.mem_singleton.mp last)

theorem mem_names_put : n ∈ names (put l e) ↔ n ∈ names l ∨ n = e.name := by
  rw [put, Edit.onList]
  split
  · rename_i present
    rw [Edit.names_overwrite]
    exact ⟨Or.inl, fun either => either.elim id fun same => same ▸ present⟩
  · simp [names]

theorem updated_of_mem {x : Entry} (member : x ∈ es.foldl put l) : updated es x = x := by
  induction es using List.reverseRecOn with
  | nil => rfl
  | append_singleton es e ih =>
    rw [List.foldl_append] at member
    rw [updated_concat]
    rcases mem_put member with rfl | ⟨before, other⟩
    · exact if_pos (name_updated es x)
    · rw [ih before, if_neg other]

theorem names_foldl_put : n ∈ names (es.foldl put l) ↔ n ∈ names l ∨ n ∈ names es := by
  induction es generalizing l with
  | nil => simp [names]
  | cons e rest ih =>
    rw [List.foldl_cons, ih, mem_names_put, or_assoc]
    simp [names]

theorem names_foldl_gathered :
    n ∈ names (ms.foldl gathered l) ↔ n ∈ names l ∨ ∃ m ∈ ms, n ∈ names m := by
  induction ms generalizing l with
  | nil => simp
  | cons m rest ih =>
    rw [List.foldl_cons, ih, mem_names_gathered, or_assoc]
    simp

/-- A list that extending, upserting and dropping names leave alone. -/
structure Settled (ms : List (List Entry)) (es : List Entry) (ns : List Name) (l : List Entry) :
    Prop where
  free : ∀ e ∈ l, e.name ∉ ns
  gathered : ∀ m ∈ ms, ∀ n ∈ names m, n ∉ ns → n ∈ names l
  written : ∀ n ∈ names es, n ∉ ns → n ∈ names l
  updated : ∀ e ∈ l, updated es e = e

theorem settled_reworked (ms : List (List Entry)) (es : List Entry) (ns : List Name)
    (l : List Entry) : Settled ms es ns (reworked ms es ns l) := by
  rw [reworked, foldl_discard]
  have kept : ∀ n, n ∉ ns → n ∈ names (es.foldl put (ms.foldl gathered l)) →
      n ∈ names ((es.foldl put (ms.foldl gathered l)).filter fun e => e.name ∉ ns) := by
    intro n free member
    obtain ⟨e, inside, rfl⟩ := mem_names.mp member
    exact List.mem_map_of_mem (List.mem_filter.mpr ⟨inside, decide_eq_true free⟩)
  refine ⟨fun e member => ?_, fun m listed n member free => ?_, fun n member free => ?_,
    fun e member => updated_of_mem (List.mem_filter.mp member).1⟩
  · exact of_decide_eq_true (List.mem_filter.mp member).2
  · exact kept n free
      (names_foldl_put.mpr (Or.inl (names_foldl_gathered.mpr (Or.inr ⟨m, listed, member⟩))))
  · exact kept n free (names_foldl_put.mpr (Or.inr member))

theorem exists_foldl_gathered {x : List Entry} (dropped : ∀ e ∈ x, e.name ∈ ns)
    (known : ∀ m ∈ ms, ∀ n ∈ names m, n ∉ ns → n ∈ names l) :
    ∃ y, ms.foldl gathered (l ++ x) = l ++ y ∧ ∀ e ∈ y, e.name ∈ ns := by
  induction ms generalizing x with
  | nil => exact ⟨x, rfl, dropped⟩
  | cons m rest ih =>
    rw [List.foldl_cons, gathered, List.append_assoc]
    refine ih (fun e member => ?_) fun m' listed => known m' (List.mem_cons_of_mem _ listed)
    rcases List.mem_append.mp member with old | new
    · exact dropped e old
    · obtain ⟨inside, absent⟩ := List.mem_filter.mp new
      by_contra free
      have present := known m List.mem_cons_self e.name (List.mem_map_of_mem inside) free
      rw [decide_eq_true_iff, names, List.map_append] at absent
      exact absent (List.mem_append_left _ present)

theorem overwrite_append (e : Entry) (l x : List Entry) :
    Edit.overwrite e (l ++ x) = Edit.overwrite e l ++ Edit.overwrite e x :=
  List.map_append

theorem overwrite_of_absent (absent : e.name ∉ names l) : Edit.overwrite e l = l := by
  rw [Edit.overwrite]
  conv_rhs => rw [← List.map_id l]
  refine List.map_congr_left fun old inside => if_neg fun same => absent ?_
  exact same ▸ List.mem_map_of_mem inside

theorem names_append (l x : List Entry) : names (l ++ x) = names l ++ names x :=
  List.map_append

theorem put_append_of_absent (absent : e.name ∉ names l) (x : List Entry) :
    put (l ++ x) e = l ++ put x e := by
  rw [put, put, Edit.onList, Edit.onList, names_append]
  by_cases there : e.name ∈ names x
  · rw [if_pos (List.mem_append_right _ there), if_pos there, overwrite_append,
      overwrite_of_absent absent]
  · rw [if_neg fun member => (List.mem_append.mp member).elim absent there, if_neg there,
      List.append_assoc]

theorem put_append_of_mem {x : List Entry} (present : e.name ∈ names l)
    (elsewhere : e.name ∉ names x) : put (l ++ x) e = Edit.overwrite e l ++ x := by
  rw [put, Edit.onList, names_append, if_pos (List.mem_append_left _ present), overwrite_append,
    overwrite_of_absent elsewhere]

theorem exists_foldl_put {x : List Entry} (free : ∀ e ∈ l, e.name ∉ ns)
    (dropped : ∀ e ∈ x, e.name ∈ ns) (known : ∀ n ∈ names es, n ∉ ns → n ∈ names l) :
    ∃ y, es.foldl put (l ++ x) = l.map (updated es) ++ y ∧ ∀ e ∈ y, e.name ∈ ns := by
  -- Each edit goes to `l` or to `x`, by whether its name is one of `ns`.
  induction es generalizing l x with
  | nil => exact ⟨x, congrArg (· ++ x) (List.map_id l).symm, dropped⟩
  | cons e rest ih =>
    have tail : ∀ n ∈ names rest, n ∉ ns → n ∈ names l :=
      fun n member => known n (List.mem_cons_of_mem _ member)
    have below : ∀ l : List Entry, l.map (updated (e :: rest)) =
        (Edit.overwrite e l).map (updated rest) := fun l => by
      rw [Edit.overwrite, List.map_map]
      rfl
    rw [List.foldl_cons, below]
    by_cases gone : e.name ∈ ns
    · -- Nothing settled has the name, so the entry goes where the dropped ones are.
      have absent : e.name ∉ names l := fun member => by
        obtain ⟨old, inside, same⟩ := mem_names.mp member
        exact free old inside (same ▸ gone)
      rw [put_append_of_absent absent, overwrite_of_absent absent]
      refine ih free (fun f member => ?_) tail
      rcases mem_put member with rfl | ⟨old, _⟩
      · exact gone
      · exact dropped f old
    · have present : e.name ∈ names l := known e.name List.mem_cons_self gone
      have elsewhere : e.name ∉ names x := fun member => by
        obtain ⟨old, inside, same⟩ := mem_names.mp member
        exact gone (same ▸ dropped old inside)
      rw [put_append_of_mem present elsewhere]
      refine ih (fun f member => ?_) dropped fun n member apart => ?_
      · rcases mem_overwrite member with rfl | ⟨old, _⟩
        · exact gone
        · exact free f old
      · rw [Edit.names_overwrite]
        exact tail n member apart

theorem reworked_of_settled (settled : Settled ms es ns l) : reworked ms es ns l = l := by
  have start : ∀ e ∈ ([] : List Entry), e.name ∈ ns := fun _ member => nomatch member
  obtain ⟨x, grown, new⟩ := exists_foldl_gathered (l := l) start settled.gathered
  obtain ⟨y, rewritten, rest⟩ := exists_foldl_put settled.free new settled.written
  have same : l.map (updated es) = l := by
    conv_rhs => rw [← List.map_id l]
    exact List.map_congr_left settled.updated
  have own : l.filter (fun e => decide (e.name ∉ ns)) = l :=
    List.filter_eq_self.mpr fun e member => decide_eq_true (settled.free e member)
  have gone : y.filter (fun e => decide (e.name ∉ ns)) = [] :=
    List.filter_eq_nil_iff.mpr fun e member => by simpa using rest e member
  rw [List.append_nil] at grown
  rw [reworked, grown, rewritten, foldl_discard, List.filter_append, same, own, gone,
    List.append_nil]

end Lists

namespace Draft

variable {d d' e : Draft} {m : Move} {ms : List Move}

/-- A call of which the kind alone settles whether it is accepted. -/
def Move.Repeatable : Move → Prop
  | .edit _ (.upsert _) | .edit _ (.delete _) | .extend _ => True
  | .edit _ (.create _) | .edit _ (.replace _) | .edit _ (.remove _) | .exclude _ => False

theorem exists_attempt_of_kind (repeatable : m.Repeatable) (formed : d.WellFormed)
    (formed' : e.WellFormed) (kind : e.kind = d.kind) (done : d.attempt m = .ok d') :
    ∃ e', e.attempt m = .ok e' := by
  cases m with
  | edit c asked =>
    have accepted := ((edit_eq_ok_iff formed).mp done).1
    have same : asked.accepted e.kind c (e.listed c) = asked.accepted d.kind c (d.listed c) := by
      rw [kind]
      cases asked <;> first | rfl | exact repeatable.elim
    exact ⟨_, (edit_eq_ok_iff formed').mpr ⟨same.trans accepted, rfl⟩⟩
  | extend other =>
    exact exists_extendWith ((kind_extendWith done).1.trans kind.symm)
  | exclude other => exact repeatable.elim

theorem exists_attempts_of_kind {node node' : Definition} (reached : ReachedFrom node d)
    (reached' : ReachedFrom node' e) (sound : ∀ m ∈ ms, m.Sound)
    (repeatable : ∀ m ∈ ms, m.Repeatable) (kind : e.kind = d.kind)
    (done : attempts ms d = .ok d') : ∃ e', attempts ms e = .ok e' := by
  induction ms generalizing d e with
  | nil => exact ⟨e, rfl⟩
  | cons m rest ih =>
    obtain ⟨mid, first, later⟩ := attempts_cons_ok.mp done
    have now := sound m List.mem_cons_self
    obtain ⟨mid', first'⟩ := exists_attempt_of_kind (repeatable m List.mem_cons_self)
      reached.isOf.formed reached'.isOf.formed kind first
    have next := reached_attempt reached now first
    have next' := reached_attempt reached' now first'
    have kinds : mid'.kind = mid.kind := by
      rw [reached'.same_kind next', kind, reached.same_kind next]
    obtain ⟨e', later'⟩ := ih next next'
      (fun m' member => sound m' (List.mem_cons_of_mem _ member))
      (fun m' member => repeatable m' (List.mem_cons_of_mem _ member)) kinds later
    exact ⟨e', attempts_cons_ok.mpr ⟨mid', first', later'⟩⟩

theorem exists_takeDescription (texts : List (Option String)) :
    ∃ text, ∀ skeleton, texts.foldl takeDescription skeleton = takeDescription skeleton text := by
  induction texts with
  | nil => exact ⟨none, fun _ => rfl⟩
  | cons first rest ih =>
    obtain ⟨text, same⟩ := ih
    refine ⟨(text.filter (!·.isEmpty)).or first, fun skeleton => ?_⟩
    rw [List.foldl_cons, same, takeDescription_takeDescription]

end Draft

section Extending

variable {types : List TypeEdit} {k : Collection}

theorem movesOf_extends (extend : ∀ e ∈ types, e.action = .extend) :
    movesOf (types.map .type) = types.map fun e => .extend e.incoming := by
  rw [movesOf, List.map_map]
  refine List.map_congr_left fun e member => ?_
  simp [Step.move, extend e member]

theorem foldl_onListOf_extends (extend : ∀ e ∈ types, e.action = .extend) (l : List Entry) :
    (movesOf (types.map .type)).foldl (fun l m => m.onListOf k l) l =
      (types.map (·.incoming.listed k)).foldl gathered l := by
  rw [movesOf_extends extend, List.foldl_map, List.foldl_map]
  rfl

theorem foldl_onSkeleton_extends (extend : ∀ e ∈ types, e.action = .extend)
    (skeleton : Definition) :
    (movesOf (types.map .type)).foldl (fun s m => m.onSkeleton s) skeleton =
      (types.map (·.incoming.description?)).foldl Draft.takeDescription skeleton := by
  rw [movesOf_extends extend, List.foldl_map, List.foldl_map]
  rfl

end Extending

structure Reworks (types : List TypeEdit) (puts drops : List MemberEdit) : Prop where
  types : ∀ e ∈ types, e.WellFormed ∧ e.action = .extend
  puts : ∀ e ∈ puts, e.WellFormed ∧ e.action = .upsert
  drops : ∀ e ∈ drops, e.WellFormed ∧ e.action = .delete

namespace Reworks

variable {types : List TypeEdit} {puts drops : List MemberEdit}

def steps (types : List TypeEdit) (puts drops : List MemberEdit) : List Step :=
  types.map .type ++ (puts.map .member ++ drops.map .member)

theorem each (reworks : Reworks types puts drops) :
    ∀ s ∈ steps types puts drops, (s.WellFormed ∧ s.Amends) ∧ s.move.Repeatable := by
  intro s member
  rcases List.mem_append.mp member with type | below
  · obtain ⟨e, listed, rfl⟩ := List.mem_map.mp type
    obtain ⟨wf, act⟩ := reworks.types e listed
    exact ⟨⟨wf, Or.inl act⟩, by simp [Step.move, act, Draft.Move.Repeatable]⟩
  · rcases List.mem_append.mp below with new | old
    · obtain ⟨e, listed, rfl⟩ := List.mem_map.mp new
      obtain ⟨wf, act⟩ := reworks.puts e listed
      exact ⟨⟨wf, trivial⟩, by simp [Step.move, MemberEdit.asked, act, Draft.Move.Repeatable]⟩
    · obtain ⟨e, listed, rfl⟩ := List.mem_map.mp old
      obtain ⟨wf, act⟩ := reworks.drops e listed
      exact ⟨⟨wf, trivial⟩, by simp [Step.move, MemberEdit.asked, act, Draft.Move.Repeatable]⟩

theorem movesOf_steps :
    movesOf (steps types puts drops) =
      movesOf (types.map .type) ++ (movesOf (puts.map .member) ++ movesOf (drops.map .member)) := by
  simp [movesOf, steps]

theorem onListOf (reworks : Reworks types puts drops) (k : Collection) (l : List Entry) :
    (movesOf (steps types puts drops)).foldl (fun l m => m.onListOf k l) l =
      reworked (types.map (·.incoming.listed k)) (entriesIn k puts)
        (names (entriesIn k drops)) l := by
  have upsert : ∀ e ∈ puts, ∀ l, e.asked.onList l = put l e.entry := fun e member l => by
    rw [MemberEdit.asked, (reworks.puts e member).2]
    rfl
  have delete : ∀ e ∈ drops, ∀ l, e.asked.onList l = Edit.discard e.entry.name l :=
    fun e member l => by
      rw [MemberEdit.asked, (reworks.drops e member).2]
      rfl
  rw [movesOf_steps, List.foldl_append, List.foldl_append,
    foldl_onListOf_extends fun e member => (reworks.types e member).2,
    foldl_onListOf_members upsert,
    foldl_onListOf_members (f := fun l e => Edit.discard e.name l) delete, reworked, names]
  exact (List.foldl_map (f := Entry.name) (g := fun l n => Edit.discard n l)).symm

theorem onSkeleton (reworks : Reworks types puts drops) :
    ∃ text, ∀ skeleton, (movesOf (steps types puts drops)).foldl (fun s m => m.onSkeleton s)
      skeleton = Draft.takeDescription skeleton text := by
  obtain ⟨text, same⟩ := Draft.exists_takeDescription (types.map (·.incoming.description?))
  refine ⟨text, fun skeleton => ?_⟩
  rw [movesOf_steps, List.foldl_append, List.foldl_append, foldl_onSkeleton_members,
    foldl_onSkeleton_members, foldl_onSkeleton_extends fun e member => (reworks.types e member).2,
    same]

theorem attempts_again (reworks : Reworks types puts drops) {d d' : Draft} {node : Definition}
    (reached : Draft.ReachedFrom node d)
    (done : Draft.attempts (movesOf (steps types puts drops)) d = .ok d') :
    Draft.attempts (movesOf (steps types puts drops)) d' = .ok d' := by
  have sound : ∀ m ∈ movesOf (steps types puts drops), m.Sound := by
    intro m member
    obtain ⟨s, listed, rfl⟩ := List.mem_map.mp member
    exact Step.move_sound (reworks.each s listed).1.1
  have repeatable : ∀ m ∈ movesOf (steps types puts drops), m.Repeatable := by
    intro m member
    obtain ⟨s, listed, rfl⟩ := List.mem_map.mp member
    exact (reworks.each s listed).2
  have first := Draft.follows_of_attempts reached sound done
  obtain ⟨node', reached'⟩ := first.reached
  obtain ⟨d'', again⟩ :=
    Draft.exists_attempts_of_kind reached reached' sound repeatable first.kind done
  have second := Draft.follows_of_attempts reached' sound again
  obtain ⟨node'', reached''⟩ := second.reached
  obtain ⟨text, described⟩ := reworks.onSkeleton
  have skeleton : d''.skeleton = d'.skeleton := by
    rw [second.skeleton, first.skeleton, described, described, Draft.takeDescription_again]
  have listed : ∀ k, d''.listed k = d'.listed k := fun k => by
    rw [second.listed, first.listed, reworks.onListOf, reworks.onListOf]
    exact reworked_of_settled (settled_reworked _ _ _ _)
  rw [again, reached'.isOf.formed.eq_of_listed reached''.isOf.formed skeleton listed]

end Reworks

namespace Plan

variable {p : Plan}

/-- All edits of types upsert, delete or extend, and all edits of members upsert or delete. -/
structure Repeatable (p : Plan) : Prop where
  types : ∀ e ∈ p.typeEdits, e.action = .upsert ∨ e.action = .delete ∨ e.action = .extend
  members : ∀ e ∈ p.memberEdits, e.action = .upsert ∨ e.action = .delete

theorem Repeatable.onlyAt (repeatable : p.Repeatable) (r : Registry) (n : Name) :
    (p.onlyAt r n).Repeatable :=
  ⟨fun e member => repeatable.types e (List.mem_filter.mp member).1,
    fun e member => repeatable.members e (List.mem_filter.mp member).1⟩

theorem Repeatable.ofAction_eq_nil (repeatable : p.Repeatable) {a : Action}
    (other : a ≠ .upsert ∧ a ≠ .delete ∧ a ≠ .extend) : p.ofAction a = [] := by
  refine Plan.ofAction_eq_nil fun e member same => ?_
  subst same
  rcases repeatable.types e member with act | act | act
  · exact other.1 act
  · exact other.2.1 act
  · exact other.2.2 act

theorem Repeatable.asking_eq_nil (repeatable : p.Repeatable) {a : Action}
    (other : a ≠ .upsert ∧ a ≠ .delete) : asking a p.memberEdits = [] := by
  refine List.filter_eq_nil_iff.mpr fun e member same => ?_
  rw [decide_eq_true_eq] at same
  subst same
  rcases repeatable.members e member with act | act
  · exact other.1 act
  · exact other.2 act

theorem Repeatable.schedule_eq (repeatable : p.Repeatable) (wf : p.WellFormed) :
    p.schedule = (p.ofAction .upsert ++ p.ofAction .delete).map .type ++
      Reworks.steps (p.ofAction .extend) (asking .upsert p.memberEdits)
        (asking .delete p.memberEdits) := by
  have types : byPhase Action.typePhases TypeEdit.action p.typeEdits =
      p.ofAction .upsert ++ (p.ofAction .delete ++ p.ofAction .extend) := by
    rw [byPhase_typeEdits, repeatable.ofAction_eq_nil (a := .create) (by decide),
      repeatable.ofAction_eq_nil (a := .replace) (by decide),
      repeatable.ofAction_eq_nil (a := .remove) (by decide),
      repeatable.ofAction_eq_nil (a := .exclude) (by decide)]
    simp
  have members : byPhase Action.memberPhases MemberEdit.action p.memberEdits =
      asking .upsert p.memberEdits ++ asking .delete p.memberEdits := by
    rw [byPhase_members, repeatable.asking_eq_nil (a := .create) (by decide),
      repeatable.asking_eq_nil (a := .replace) (by decide),
      repeatable.asking_eq_nil (a := .remove) (by decide)]
    simp
  rw [Plan.schedule_eq wf, types, members, Reworks.steps]
  simp

theorem reworks (wf : p.WellFormed) :
    Reworks (p.ofAction .extend) (asking .upsert p.memberEdits)
      (asking .delete p.memberEdits) where
  types e member := ⟨wf.typeEdits e (List.mem_filter.mp member).1, action_of_mem member⟩
  puts e member := ⟨wf.memberEdits e (List.mem_filter.mp member).1, action_of_asking member⟩
  drops e member := ⟨wf.memberEdits e (List.mem_filter.mp member).1, action_of_asking member⟩

theorem onPlace_of_upsert_or_delete {e : TypeEdit}
    (act : e.action = .upsert ∨ e.action = .delete) (held held' : Option Draft) :
    (Step.type e).onPlace held = (Step.type e).onPlace held' := by
  rcases act with act | act <;> cases held <;> cases held' <;>
    simp only [Step.onPlace, TypeEdit.onPlace, act]

theorem onPlaceAll_again (repeatable : p.Repeatable) (wf : p.WellFormed)
    {held last : Option Draft} (reached : ∀ d, held = some d → ∃ node, Draft.ReachedFrom node d)
    (ran : onPlaceAll p.schedule held = .ok last) : onPlaceAll p.schedule last = .ok last := by
  rw [repeatable.schedule_eq wf] at ran ⊢
  have reworks := Plan.reworks wf
  cases anew : p.ofAction .upsert ++ p.ofAction .delete with
  | cons e rest =>
    -- The run starts from nothing, whatever there is.
    have act : e.action = .upsert ∨ e.action = .delete := by
      have member : e ∈ p.ofAction .upsert ++ p.ofAction .delete := anew ▸ List.mem_cons_self
      exact (List.mem_append.mp member).imp action_of_mem action_of_mem
    rw [anew, List.map_cons, List.cons_append, onPlaceAll_cons,
      onPlace_of_upsert_or_delete act held last] at ran
    rwa [List.map_cons, List.cons_append, onPlaceAll_cons]
  | nil =>
    rw [anew, List.map_nil, List.nil_append] at ran
    rw [List.map_nil, List.nil_append]
    have amend := fun s member => (reworks.each s member).1
    rcases cases_of_amends amend ran with ⟨none, -⟩ | ⟨d, d', rfl, rfl, done⟩
    · rw [none]
      rfl
    · obtain ⟨node, reached⟩ := reached d rfl
      exact (onPlaceAll_some_iff amend).mpr
        ⟨d', reworks.attempts_again reached done, rfl⟩

theorem names_again (wf : p.WellFormed) {cat cat' cat'' : Catalog}
    (ran : p.outcome cat = .ok cat') (again : p.outcome cat' = .ok cat'') (r : Registry) :
    cat''.names r = cat'.names r := by
  have before := names_outcome wf ran r
  have kept : (cat'.names r).filter (fun n => decide (n ∉ p.dropped r)) = cat'.names r := by
    rw [before, List.filter_append, List.filter_filter, List.filter_filter]
    congr 1 <;> refine List.filter_congr fun n _ => ?_ <;> simp
  have nothing : (p.introduced r).eraseDups.filter
      (fun n => decide (n ∉ cat'.names r ∧ n ∉ p.dropped r)) = [] := by
    refine List.filter_eq_nil_iff.mpr fun n member new => ?_
    obtain ⟨absent, stays⟩ := of_decide_eq_true new
    refine absent ?_
    rw [before, List.mem_append, List.mem_filter, List.mem_filter]
    by_cases there : n ∈ cat.names r
    · exact Or.inl ⟨there, decide_eq_true stays⟩
    · exact Or.inr ⟨member, decide_eq_true ⟨there, stays⟩⟩
  rw [names_outcome wf again r, kept, nothing, List.append_nil]

/-- A plan whose edits of types upsert, delete or extend, and whose edits of members upsert or
delete, may be applied again: where it succeeded it succeeds again, and leaves the catalog exactly
as it was, with the order of definitions and entries. -/
theorem outcome_again {overrides : Document} {p : Plan} (planned : ofDocument overrides = .ok p)
    (repeatable : p.Repeatable) {cat cat' : Catalog} (reached : cat.Reached)
    (ran : p.outcome cat = .ok cat') : p.outcome cat' = .ok cat' := by
  have wf := ofDocument_wellFormed planned
  have filed := reached.filed
  have filed' : cat'.Filed := filed.performAll wf.step ((outcome_eq wf cat).symm.trans ran)
  refine outcome_of_target wf filed' filed' (fun r n => ?_) fun _ again => names_again wf ran again
  have first := outcome_place wf ran r n
  rw [← schedule_onlyAt wf] at first ⊢
  refine onPlaceAll_again (repeatable.onlyAt r n) (wf.onlyAt r n) (fun d found => ?_) first
  exact (filed.get? found).reached

def refresh : Document := ⟨[
  objectOf "Post" ["upsert"] [("id", [])],
  objectOf "User" ["extend"] [("email", []), ("name", [])],
  objectOf "User" [] [("id", ["upsert"]), ("email", ["delete"]), ("age", ["upsert"])],
  objectOf "User" [] [("age", ["delete"])]]⟩

def refreshPlan : Plan where
  typeEdits := [
    ⟨.upsert, objectOf "Post" [] [("id", [])], .type .object, "Post"⟩,
    ⟨.extend, objectOf "User" [] [("email", []), ("name", [])], .type .object, "User"⟩]
  memberEdits := [
    ⟨.upsert, .field (stringField "id" []), .definitions, .fields, "User", false⟩,
    ⟨.delete, .field (stringField "email" []), .definitions, .fields, "User", false⟩,
    ⟨.upsert, .field (stringField "age" []), .definitions, .fields, "User", false⟩,
    ⟨.delete, .field (stringField "age" []), .definitions, .fields, "User", false⟩]

theorem outcome_again_refresh :
    ofDocument refresh = .ok refreshPlan ∧ refreshPlan.Repeatable ∧
    ∃ cat cat', Catalog.ofDocument Catalog.splitUser = .ok cat ∧
      refreshPlan.outcome cat = .ok cat' ∧ cat'.names .definitions = ["User", "Post"] ∧
      refreshPlan.outcome cat' = .ok cat' := by
  have planned : ofDocument refresh = .ok refreshPlan := rfl
  have repeatable : refreshPlan.Repeatable := by
    constructor
    · intro e member
      simp only [refreshPlan, List.mem_cons, List.not_mem_nil, or_false] at member
      rcases member with rfl | rfl <;> simp
    · intro e member
      simp only [refreshPlan, List.mem_cons, List.not_mem_nil, or_false] at member
      rcases member with rfl | rfl | rfl | rfl <;> simp
  have loaded : Catalog.ofDocument Catalog.splitUser = .ok _ := rfl
  exact ⟨planned, repeatable, _, _, loaded, rfl, rfl,
    outcome_again planned repeatable (.ofDocument loaded) rfl⟩

end Plan

end SchemaOverlay

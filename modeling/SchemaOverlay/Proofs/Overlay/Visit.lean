import SchemaOverlay.Proofs.Edit.Collapse
import SchemaOverlay.Proofs.Overlay.Classification
import SchemaOverlay.Proofs.Sdl.Position

/-!
The walk over a document as its visitor sees it. The visitor is called with each use of a directive, in
the order of their positions, until a call fails; that failure is what the walk ends with. A plan, which is
one such visitor, takes the visited use and no other from the node that carries it.
-/
namespace SchemaOverlay

open Sdl

namespace Sdl

/-- What is done on a visit: it may change a state, and it may fail. A failure keeps the state. -/
abbrev Visitor (σ ε : Type) := Use → ExceptT ε (StateM σ) PUnit

namespace Visitor

variable {σ ε : Type} (visit : Visitor σ ε)

def call (u : Use) (s : σ) : Except ε Unit × σ := (visit u).run.run s

/-- The visitor that lists its calls besides. -/
def noting : Visitor (σ × List Use) ε := fun u => ExceptT.mk fun s =>
  ((visit.call u s.1).1, (visit.call u s.1).2, s.2 ++ [u])

inductive Passes : List Use → σ → σ → Prop
  | nil (s : σ) : Passes [] s s
  | cons {u : Use} {later : List Use} {s t t' : σ} (now : visit.call u s = (.ok ⟨⟩, t))
      (rest : Passes later t t') : Passes (u :: later) s t'

/-- What calls for the given uses come to, the state they leave, and the uses there was a call for. The
first call that fails is the last one. -/
inductive Calls (uses : List Use) (s : σ) : Except ε Unit → σ → List Use → Prop
  | all {t : σ} (pass : visit.Passes uses s t) : Calls uses s (.ok ⟨⟩) t uses
  | stopped {early late : List Use} {u : Use} {t t' : σ} {e : ε} (split : uses = early ++ u :: late)
      (pass : visit.Passes early s t) (fails : visit.call u t = (.error e, t')) :
      Calls uses s (.error e) t' (early ++ [u])

variable {visit}

theorem Calls.cons {u : Use} {uses called : List Use} {s t t' : σ} {result : Except ε Unit}
    (now : visit.call u s = (.ok ⟨⟩, t)) (rest : visit.Calls uses t result t' called) :
    visit.Calls (u :: uses) s result t' (u :: called) := by
  cases rest with
  | all pass => exact .all (.cons now pass)
  | @stopped early late v _ _ _ split pass fails =>
    exact @Calls.stopped _ _ _ _ _ (u :: early) late v _ _ _ (by rw [split]; rfl) (.cons now pass) fails

theorem run_forM_cons (visit : Visitor σ ε) (u : Use) (uses : List Use) (s : σ) :
    (forM (u :: uses) visit).run.run s =
      match visit.call u s with
      | (.ok _, t) => (forM uses visit).run.run t
      | (.error e, t) => (.error e, t) := by
  rw [List.forM_cons, ExceptT.run_bind, StateT.run_bind, call]
  generalize (visit u).run.run s = called
  rcases called with ⟨_ | _, t⟩ <;> rfl

theorem calls_forM (visit : Visitor σ ε) (uses : List Use) (s : σ) :
    ∃ result t called, visit.Calls uses s result t called ∧
      (forM uses visit).run.run s = (result, t) ∧
      ∀ before, (forM uses visit.noting).run.run (s, before) = (result, t, before ++ called) := by
  induction uses generalizing s with
  | nil => exact ⟨_, s, [], .all (.nil s), rfl, fun before => by rw [List.append_nil]; rfl⟩
  | cons u uses ih =>
    simp only [run_forM_cons]
    have noted (before : List Use) : visit.noting.call u (s, before) =
        ((visit.call u s).1, (visit.call u s).2, before ++ [u]) := rfl
    rcases called : visit.call u s with ⟨e | _, t⟩
    · refine ⟨.error e, t, [u], ?_, rfl, fun before => by rw [noted, called]⟩
      exact @Calls.stopped _ _ _ _ _ [] uses u _ _ _ rfl (.nil s) called
    · obtain ⟨result, t', rest, calls, ran, ranNoting⟩ := ih t
      refine ⟨result, t', u :: rest, calls.cons called, ran, fun before => ?_⟩
      rw [noted, called]
      dsimp only
      rw [ranNoting, List.append_assoc, List.singleton_append]

end Visitor

theorem Definition.isType_withDirectives (d : Definition) (uses : List Directive) :
    (d.withDirectives uses).isType = d.isType := by
  cases d <;> rfl

/-- The nodes of a type that a walk visits are the type and the entries of its collections, and what it
visits there is what they carry. With other directives in their place the type is otherwise the same. -/
structure Definition.Collects (d : Definition) : Prop where
  directives : d.entries .directives = (Site.definition d).directives.map .directive
  written (uses : List Directive) :
    (d.withDirectives uses).entries .directives = uses.map .directive
  kept (uses : List Directive) (c : Collection) (other : c ≠ .directives) :
    (d.withDirectives uses).entries c = d.entries c
  members : d.members.map Site.entry? =
    (d.entries .fields).map (fun e => some (.fields, e)) ++
      (d.entries .values).map fun e => some (.values, e)
  carried : ∀ s ∈ d.members, ∀ c e, s.entry? = some (c, e) → s.directives = e.directives

theorem Definition.members_entry? {d : Definition} (type : d.isType = true) :
    d.members.map Site.entry? =
      (d.entries .fields).map (fun e => some (.fields, e)) ++
        (d.entries .values).map fun e => some (.values, e) := by
  have body (body : TypeBody) : (body.members d).map Site.entry? =
      (body.entries .fields).map (fun e => some (.fields, e)) ++
        (body.entries .values).map fun e => some (.values, e) := by
    cases body <;> simp [TypeBody.members, TypeBody.entries, Function.comp_def, Site.entry?]
  cases d with
  | schema s => cases type
  | type description node => exact body node.body
  | extension node => exact body node.body
  | directive definition => cases type

theorem Definition.collects {d : Definition} (type : d.isType = true) : d.Collects where
  directives := entries_directives type
  written uses := by
    rw [entries_directives ((d.isType_withDirectives uses).trans type)]
    cases d <;> first | rfl | cases type
  kept uses _ other := d.entries_withDirectives_of_ne uses other
  members := members_entry? type
  carried _ _ _ _ := Site.directives_of_entry?

/-- The edit holds what carries the use, with the directives before it and behind it. -/
inductive Use.LeftOutOf (u : Use) : Step → Prop
  | type {description : Option String} {node : TypeNode} {before after : List Directive}
      {a : Action} {kind : Kind} {name : Name} (site : u.site = .definition (.type description node))
      (carried : node.directives = before ++ u.directive :: after)
      (index : before.length = u.index) :
      LeftOutOf u
        (.type ⟨a, .type description { node with directives := before ++ after }, kind, name⟩)
  | extension {node : TypeNode} {before after : List Directive}
      {a : Action} {kind : Kind} {name : Name} (site : u.site = .definition (.extension node))
      (carried : node.directives = before ++ u.directive :: after)
      (index : before.length = u.index) :
      LeftOutOf u (.type ⟨a, .extension { node with directives := before ++ after }, kind, name⟩)
  | field {d : Definition} {f : Field} {before after : List Directive} {a : Action} {r : Registry}
      {name : Name} {within : Bool} (site : u.site = .field d f)
      (carried : f.directives = before ++ u.directive :: after) (index : before.length = u.index) :
      LeftOutOf u
        (.member ⟨a, .field { f with directives := before ++ after }, r, .fields, name, within⟩)
  | inputValue {d : Definition} {v : InputValue} {before after : List Directive} {a : Action}
      {r : Registry} {name : Name} {within : Bool} (site : u.site = .inputValue d v)
      (carried : v.directives = before ++ u.directive :: after) (index : before.length = u.index) :
      LeftOutOf u
        (.member ⟨a, .inputValue { v with directives := before ++ after }, r, .fields, name, within⟩)
  | enumValue {d : Definition} {v : EnumValue} {before after : List Directive} {a : Action}
      {r : Registry} {name : Name} {within : Bool} (site : u.site = .enumValue d v)
      (carried : v.directives = before ++ u.directive :: after) (index : before.length = u.index) :
      LeftOutOf u
        (.member ⟨a, .enumValue { v with directives := before ++ after }, r, .values, name, within⟩)

end Sdl

theorem Instruction.AsksFor.leftOutOf {i : Instruction} {s : Step} (asks : i.AsksFor s) :
    i.use.LeftOutOf s := by
  cases asks with
  | @type d _ _ _ _ site type _ _ carried index =>
    cases d with
    | schema s => cases type
    | type description node => exact .type site carried index
    | extension node => exact .extension site carried index
    | directive definition => cases type
  | @member _ _ _ _ _ _ entry _ _ _ _ carried index =>
    cases there : i.site with
    | definition d => simp [there, Site.entry?] at entry
    | argument d f v => simp [there, Site.entry?] at entry
    | field d f =>
      rw [there] at entry
      cases entry
      exact .field there carried index
    | inputValue d v =>
      rw [there] at entry
      cases entry
      exact .inputValue there carried index
    | enumValue d v =>
      rw [there] at entry
      cases entry
      exact .enumValue there carried index

namespace Plan

/-- What a plan under way makes of a use: nothing if it is of no action directive, and otherwise the
edit that is asked for or a refusal. -/
inductive Records (u : Use) (p : Plan) : Except OverlayError (PUnit × Plan) → Prop
  | nothing (other : ∀ a : Action, u.directive.name ≠ a.directiveName) : Records u p (.ok (⟨⟩, p))
  | edit {a : Action} {s : Step} (named : u.directive.name = a.directiveName)
      (asks : Instruction.AsksFor ⟨a, u⟩ s) (left : u.LeftOutOf s) :
      Records u p (.ok (⟨⟩, p.add (some s)))
  | refusal {a : Action} {e : OverlayError} (named : u.directive.name = a.directiveName)
      (refused : Instruction.Refused ⟨a, u⟩ e) : Records u p (.error e)

theorem records_recordUse {u : Use} (there : u.site.directives[u.index]? = some u.directive)
    (p : Plan) : Records u p ((recordUse u).run p) := by
  rw [recordUse_run]
  cases asked : u.instruction? with
  | none =>
    rw [step?_of_none asked]
    refine .nothing fun a named => ?_
    rw [Use.instruction?_eq_none_iff] at asked
    exact asked a named
  | some i =>
    obtain ⟨named, rfl⟩ := Use.instruction?_eq_some_iff.mp asked
    have name := Action.ofDirectiveName?_eq_some_iff.mp named
    rw [step?_of_some asked]
    cases recorded : i.step with
    | ok s =>
      have asks := (Instruction.step_eq_ok_iff there).mp recorded
      exact .edit name asks asks.leftOutOf
    | error e => exact .refusal name (Instruction.step_eq_error_iff.mp recorded)

end Plan

/-- The walk over a document. The uses of directives are what the document holds at its positions, each
position once and in order. Every visitor is called with these uses one after another, until a call fails
or all are done, and the walk ends as the last call did. So the index of a use that a plan is called with
is always one of the directives that its node carries, the use itself stands there, and the plan takes out
just that one. -/
theorem Sdl.Document.walk_calls (doc : Document) :
    (∃ located : List (Position × Use), (located.map Prod.fst).Nodup ∧
      located.Pairwise (fun x y => x.1.Before y.1) ∧
      (∀ p u, (p, u) ∈ located ↔ doc.Holds p u) ∧ located.map Prod.snd = doc.uses) ∧
    (∀ {σ ε : Type} (visit : Visitor σ ε) (s : σ), ∃ result t called,
      visit.Calls doc.uses s result t called ∧ (doc.walk visit).run.run s = (result, t) ∧
      (doc.walk visit.noting).run.run (s, []) = (result, t, called)) ∧
    doc.walk Plan.recordUse = forM doc.uses Plan.recordUse ∧
    (∀ u ∈ doc.uses, u.Stands ∧ u.index < u.site.directives.length ∧
      u.site.directives[u.index]? = some u.directive ∧
      ∀ p, Plan.Records u p ((Plan.recordUse u).run p)) ∧
    ∀ d ∈ doc.definitions, d.isType = true → d.Collects := by
  refine ⟨?_, fun visit s => ?_, doc.walk_eq _, fun u listed => ?_, fun d _ type => d.collects type⟩
  · obtain ⟨located, ordered, complete, listed⟩ := doc.enumerates_uses.located
    have apart : (located.map Prod.fst).Nodup :=
      List.pairwise_map.mpr (ordered.imp fun before => before.ne)
    exact ⟨located, apart, ordered, fun p u => (complete p u).trans useAt?_eq_some_iff, listed⟩
  · obtain ⟨result, t, called, calls, ran, noted⟩ := visit.calls_forM doc.uses s
    refine ⟨result, t, called, calls, ?_, ?_⟩
    · rw [doc.walk_eq, ran]
    · rw [doc.walk_eq, noted, List.nil_append]
  · obtain ⟨_, _, _, there⟩ := Document.mem_uses_iff.mp listed
    exact ⟨Use.stands_iff.mpr there, (List.getElem?_eq_some_iff.mp there).1, there,
      Plan.records_recordUse there⟩

namespace Sdl

def everyNode : Document := ⟨[
  .type none ⟨"User", [⟨"a", []⟩, ⟨"b", []⟩], .object [] [
    ⟨none, "posts", [⟨none, "first", .named "Int", none, [⟨"c", []⟩]⟩], .named "Post", [⟨"d", []⟩]⟩]⟩,
  .extension ⟨"Role", [⟨"e", []⟩], .enum [⟨none, "ADMIN", [⟨"f", []⟩]⟩]⟩,
  .type none ⟨"NewUser", [], .inputObject [⟨none, "name", .named "String", none, [⟨"g", []⟩]⟩]⟩,
  .directive ⟨none, "auth", [⟨none, "role", .named "String", none, [⟨"h", []⟩]⟩], false, []⟩,
  .schema ⟨[⟨"i", []⟩], some "Query", none, none⟩]⟩

def untilNamed (n : Name) : Visitor Nat String := fun u => do
  modify (· + 1)
  if u.directive.name = n then throw n

theorem Document.walk_calls_everyNode :
    (∃ located : List (Position × Use), (located.map Prod.fst).Nodup ∧
      (∀ p u, (p, u) ∈ located ↔ everyNode.Holds p u) ∧
      located.map (fun x => (x.2.directive.name, x.2.index, Plan.describeSite x.2.site)) = [
        ("a", 0, "ObjectTypeDefinition `User`"), ("b", 1, "ObjectTypeDefinition `User`"),
        ("c", 0, "input value `first` (in field `posts` in ObjectTypeDefinition `User`)"),
        ("d", 0, "field `posts` (in ObjectTypeDefinition `User`)"),
        ("e", 0, "EnumTypeExtension `Role`"),
        ("f", 0, "enum value `ADMIN` (in EnumTypeExtension `Role`)"),
        ("g", 0, "input value `name` (in InputObjectTypeDefinition `NewUser`)"),
        ("h", 0, "input value `role` (in DirectiveDefinition `auth`)"),
        ("i", 0, "the schema definition")]) ∧
    (untilNamed "g").Calls everyNode.uses 0 (.error "g") 7 (everyNode.uses.take 7) ∧
    (untilNamed "z").Calls everyNode.uses 0 (.ok ⟨⟩) 9 everyNode.uses ∧
    ∀ u ∈ everyNode.uses, u.Stands := by
  obtain ⟨⟨located, apart, _, complete, listed⟩, visited, _, stand, _⟩ := everyNode.walk_calls
  refine ⟨⟨located, apart, complete, ?_⟩, ?_, ?_, fun u use => (stand u use).1⟩
  · calc located.map (fun x => (x.2.directive.name, x.2.index, Plan.describeSite x.2.site))
        = everyNode.uses.map (fun u => (u.directive.name, u.index, Plan.describeSite u.site)) := by
          rw [← listed, List.map_map]
          rfl
      _ = _ := by decide +kernel
  · have noted : (everyNode.walk (untilNamed "g").noting).run.run (0, []) =
        (.error "g", 7, everyNode.uses.take 7) := rfl
    obtain ⟨_, _, _, calls, _, ran⟩ := visited (untilNamed "g") 0
    cases noted.symm.trans ran
    exact calls
  · have noted : (everyNode.walk (untilNamed "z").noting).run.run (0, []) =
        (.ok ⟨⟩, 9, everyNode.uses) := rfl
    obtain ⟨_, _, _, calls, _, ran⟩ := visited (untilNamed "z") 0
    cases noted.symm.trans ran
    exact calls

end Sdl

end SchemaOverlay

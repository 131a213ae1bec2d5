import SchemaOverlay.Proofs.Edit.Catalog
import SchemaOverlay.Proofs.Edit.Export

/-!
Where a catalog files its drafts. The invariant that no type enforces: a registry has no name twice,
and the draft under a name has that name, is of a kind that belongs in the registry, and came out of
calls on an opened definition. Every call on a catalog keeps it.
-/
namespace SchemaOverlay

open Sdl

namespace Draft

inductive Call (d : Draft) : Draft → Prop
  | create (c : Collection) (e : Entry) : Call d (d.settle (d.create c e))
  | replace (c : Collection) (e : Entry) : Call d (d.settle (d.replace c e))
  | upsert (c : Collection) (e : Entry) : Call d (d.settle (d.upsert c e))
  | delete (c : Collection) (n : Name) : Call d (d.settle (d.delete c n))
  | remove (c : Collection) (n : Name) : Call d (d.settle (d.remove c n))
  | lookUp (c : Collection) (supported : d.supports c = true) : Call d (d.setHeld c (d.held c))
  | extendWith {source : Definition} {other : Draft} (reached : ReachedFrom source other) :
      Call d (d.settle (d.extendWith other))
  | excludeWith {source : Definition} {other : Draft} (reached : ReachedFrom source other) :
      Call d (d.settle (d.excludeWith other))

theorem ReachedFrom.call {node : Definition} {d d' : Draft} (reached : ReachedFrom node d)
    (call : d.Call d') : ReachedFrom node d' := by
  cases call with
  | create c e => exact reached.create c e
  | replace c e => exact reached.replace c e
  | upsert c e => exact reached.upsert c e
  | delete c n => exact reached.delete c n
  | remove c n => exact reached.remove c n
  | lookUp c supported => exact reached.lookUp c supported
  | extendWith other => exact reached.extendWith other
  | excludeWith other => exact reached.excludeWith other

theorem Call.of_extendWith {source : Definition} {d d' other : Draft}
    (reached : ReachedFrom source other) (done : d.extendWith other = .ok d') : d.Call d' := by
  have call := Call.extendWith (d := d) reached
  rwa [done] at call

theorem Call.of_excludeWith {source : Definition} {d d' other : Draft}
    (reached : ReachedFrom source other) (done : d.excludeWith other = .ok d') : d.Call d' := by
  have call := Call.excludeWith (d := d) reached
  rwa [done] at call

theorem ReachedFrom.sameFile {node : Definition} {d d' : Draft} (reached : ReachedFrom node d)
    (reached' : ReachedFrom node d') : d'.name = d.name ∧ d'.registry = d.registry := by
  have kinds := reached'.isOf.kind.symm.trans reached.isOf.kind
  have names := reached'.isOf.name.symm.trans reached.isOf.name
  exact ⟨Option.some.inj names, congrArg Kind.registry (Option.some.inj kinds)⟩

/-- What a call with a definition may leave where `held` was: the definition as a whole, or what was
there with the definition merged in or taken out. -/
inductive Becomes (incoming : Draft) : Option Draft → Draft → Prop
  | whole (held : Option Draft) : Becomes incoming held incoming
  | extended {first d : Draft} (done : first.extendWith incoming = .ok d) :
      Becomes incoming (some first) d
  | excluded {first d : Draft} (done : first.excludeWith incoming = .ok d) :
      Becomes incoming (some first) d

end Draft

namespace Catalog

structure Files (r : Registry) (n : Name) (d : Draft) : Prop where
  name : d.name = n
  registry : d.registry = r
  reached : ∃ node, Draft.ReachedFrom node d

theorem Files.formed {r : Registry} {n : Name} {d : Draft} (files : Files r n d) :
    d.WellFormed := by
  obtain ⟨node, reached⟩ := files.reached
  exact reached.isOf.formed

theorem Files.call {r : Registry} {n : Name} {d d' : Draft} (files : Files r n d)
    (call : d.Call d') : Files r n d' := by
  obtain ⟨node, reached⟩ := files.reached
  obtain ⟨name, registry⟩ := reached.sameFile (reached.call call)
  exact ⟨name.trans files.name, registry.trans files.registry, node, reached.call call⟩

theorem Files.becomes {r : Registry} {n : Name} {incoming d : Draft} {held : Option Draft}
    (files : Files r n incoming) (before : ∀ first, held = some first → Files r n first)
    (became : incoming.Becomes held d) : Files r n d := by
  obtain ⟨source, other⟩ := files.reached
  cases became with
  | whole held => exact files
  | extended done => exact (before _ rfl).call (.of_extendWith other done)
  | excluded done => exact (before _ rfl).call (.of_excludeWith other done)

structure Filed (cat : Catalog) : Prop where
  distinct : ∀ r, (cat.registry r).Distinct
  files : ∀ r n d, (n, d) ∈ (cat.registry r).pairs → Files r n d

theorem Filed.empty : Catalog.empty.Filed where
  distinct := by
    intro r
    cases r <;> exact List.nodup_nil
  files := by
    intro r n d member
    cases r <;> cases member

theorem Filed.get? {cat : Catalog} (filed : cat.Filed) {r : Registry} {n : Name} {d : Draft}
    (found : cat.get? r n = some d) : Files r n d :=
  filed.files r n d (Keyed.mem_of_get? found)

theorem mem_pairs_store {cat : Catalog} {r s : Registry} {n : Name} {held : Option Draft}
    {p : Name × Draft} (member : p ∈ ((cat.store r n held).registry s).pairs) :
    (r = s ∧ p.1 = n ∧ held = some p.2) ∨ p ∈ (cat.registry s).pairs := by
  by_cases here : r = s
  · subst here
    cases held with
    | none =>
      simp only [store, delete, registry_setRegistry, ↓reduceIte] at member
      exact Or.inr (Keyed.mem_pairs_erase member)
    | some draft =>
      simp only [store, put, registry_setRegistry, ↓reduceIte] at member
      rcases Keyed.mem_pairs_insert member with new | old
      · cases new
        exact Or.inl ⟨rfl, rfl, rfl⟩
      · exact Or.inr old
  · rw [registry_store_of_ne cat n held here] at member
    exact Or.inr member

theorem Filed.store {cat : Catalog} (filed : cat.Filed) {r : Registry} {n : Name}
    {held : Option Draft} (fits : ∀ d, held = some d → Files r n d) :
    (cat.store r n held).Filed where
  distinct := by
    intro s
    by_cases here : r = s
    · subst here
      cases held with
      | none =>
        simpa [Catalog.store, Catalog.delete, registry_setRegistry] using
          (filed.distinct r).erase n
      | some draft =>
        simpa [Catalog.store, Catalog.put, registry_setRegistry] using
          (filed.distinct r).insert n draft
    · rw [registry_store_of_ne cat n held here]
      exact filed.distinct s
  files := by
    intro s m d member
    rcases mem_pairs_store member with ⟨rfl, rfl, new⟩ | old
    · exact fits d new
    · exact filed.files s m d old

theorem exists_of_map_eq_ok {α β ε : Type} {x : Except ε α} {f : α → β} {b : β}
    (mapped : x.map f = .ok b) : ∃ a, x = .ok a ∧ b = f a := by
  cases x with
  | error e => cases mapped
  | ok a =>
    cases mapped
    exact ⟨a, rfl, rfl⟩

section Calls

variable {cat cat' : Catalog} {r : Registry} {n : Name} {d : Definition}

theorem draftFor_eq_ok_iff {draft : Draft} :
    draftFor r d = .ok draft ↔ Draft.ofDefinition d = .ok draft ∧ draft.registry = r := by
  unfold draftFor
  cases Draft.ofDefinition d with
  | error e => simp [bind, Except.bind]
  | ok opened =>
    by_cases home : opened.registry = r
    · simp only [bind, Except.bind, home, pure, Except.pure, ↓reduceIte, Except.ok.injEq]
      constructor
      · rintro rfl
        exact ⟨rfl, home⟩
      · exact And.left
    · simp only [bind, Except.bind, home, throw, throwThe, MonadExceptOf.throw, ↓reduceIte,
        reduceCtorEq, Except.ok.injEq, false_iff, not_and]
      rintro rfl
      exact home

theorem Files.draftFor {draft : Draft} (made : draftFor r d = .ok draft) :
    Files r draft.name draft := by
  obtain ⟨opened, home⟩ := draftFor_eq_ok_iff.mp made
  exact ⟨rfl, home, d, .opened opened⟩

def Stores (cat : Catalog) (r : Registry) (d : Definition) (cat' : Catalog) : Prop :=
  ∃ incoming draft, draftFor r d = .ok incoming ∧
    incoming.Becomes (cat.get? r incoming.name) draft ∧
    cat' = cat.store r incoming.name (some draft)

theorem create_stores (ran : cat.create r d = .ok cat') : cat.Stores r d cat' := by
  cases made : Catalog.draftFor r d with
  | error e => simp [create, made, bind, Except.bind] at ran
  | ok incoming =>
    rw [create_eq made] at ran
    split at ran
    · cases ran
      exact ⟨incoming, incoming, made, .whole _, rfl⟩
    · cases ran

theorem replace_stores (ran : cat.replace r d = .ok cat') : cat.Stores r d cat' := by
  cases made : Catalog.draftFor r d with
  | error e => simp [replace, made, bind, Except.bind] at ran
  | ok incoming =>
    rw [replace_eq made] at ran
    split at ran
    · cases ran
      exact ⟨incoming, incoming, made, .whole _, rfl⟩
    · cases ran

theorem upsert_stores (ran : cat.upsert r d = .ok cat') : cat.Stores r d cat' := by
  cases made : Catalog.draftFor r d with
  | error e => simp [upsert, made, bind, Except.bind] at ran
  | ok incoming =>
    rw [upsert_eq made] at ran
    cases ran
    exact ⟨incoming, incoming, made, .whole _, rfl⟩

theorem extend_stores (ran : cat.extend r d = .ok cat') : cat.Stores r d cat' := by
  cases made : Catalog.draftFor r d with
  | error e => simp [extend, made, bind, Except.bind] at ran
  | ok incoming =>
    rw [extend_eq made] at ran
    split at ran
    · rename_i first found
      obtain ⟨draft, done, stored⟩ := exists_of_map_eq_ok ran
      exact ⟨incoming, draft, made, found ▸ .extended done, stored⟩
    · cases ran

theorem exclude_stores (ran : cat.exclude r d = .ok cat') : cat.Stores r d cat' := by
  cases made : Catalog.draftFor r d with
  | error e => simp [exclude, made, bind, Except.bind] at ran
  | ok incoming =>
    rw [exclude_eq made] at ran
    split at ran
    · rename_i first found
      obtain ⟨draft, done, stored⟩ := exists_of_map_eq_ok ran
      exact ⟨incoming, draft, made, found ▸ .excluded done, stored⟩
    · cases ran

theorem Filed.stores (filed : cat.Filed) (ran : cat.Stores r d cat') : cat'.Filed := by
  obtain ⟨incoming, draft, made, became, rfl⟩ := ran
  refine filed.store fun held same => ?_
  cases same
  exact (Files.draftFor made).becomes (fun first found => filed.get? found) became

theorem Filed.delete (filed : cat.Filed) : (cat.delete r n).Filed :=
  have cleared : (cat.store r n none).Filed := filed.store fun _ same => nomatch same
  cleared

theorem Filed.remove (filed : cat.Filed) (ran : cat.remove r n = .ok cat') : cat'.Filed := by
  rw [remove_eq] at ran
  split at ran
  · cases ran
    exact filed.delete
  · cases ran

theorem Filed.edit {draft draft' : Draft} (filed : cat.Filed) (found : cat.get? r n = some draft)
    (call : draft.Call draft') : (cat.put r n draft').Filed := by
  have stored : (cat.store r n (some draft')).Filed := by
    refine filed.store fun held same => ?_
    cases same
    exact (filed.get? found).call call
  exact stored

end Calls

section Loading

variable {cat cat' : Catalog} {d : Definition}

theorem add_eq {draft : Draft} (made : Draft.ofDefinition d = .ok draft) :
    cat.add d =
      match cat.get? draft.registry draft.name with
      | some first =>
        (first.extendWith draft).map (cat.store draft.registry draft.name <| some ·)
      | none => .ok (cat.store draft.registry draft.name (some draft)) := by
  simp only [add, made, bind, Except.bind]
  cases cat.get? draft.registry draft.name with
  | none => rfl
  | some first => cases first.extendWith draft <;> rfl

theorem add_stores (ran : cat.add d = .ok cat') : ∃ r, cat.Stores r d cat' := by
  cases made : Draft.ofDefinition d with
  | error e => simp [add, made, bind, Except.bind] at ran
  | ok incoming =>
    have home := draftFor_eq_ok_iff.mpr ⟨made, rfl⟩
    rw [add_eq made] at ran
    split at ran
    · rename_i first found
      obtain ⟨draft, done, stored⟩ := exists_of_map_eq_ok ran
      exact ⟨_, incoming, draft, home, found ▸ .extended done, stored⟩
    · cases ran
      exact ⟨_, incoming, incoming, home, .whole _, rfl⟩

/-- What holds before definitions are loaded and survives each of them holds at the end. -/
theorem addAll_induction {ds : List Definition} {P : Catalog → Prop} (start : P cat)
    (stored : ∀ d ∈ ds, ∀ r mid next, P mid → mid.Stores r d next → P next)
    (loaded : ds.foldlM add cat = .ok cat') : P cat' := by
  induction ds generalizing cat with
  | nil =>
    cases loaded
    exact start
  | cons d rest ih =>
    rw [List.foldlM_cons] at loaded
    cases first : cat.add d with
    | error e => simp [first, bind, Except.bind] at loaded
    | ok mid =>
      rw [first] at loaded
      obtain ⟨r, ran⟩ := add_stores first
      have next := stored d (by simp) r cat mid start ran
      exact ih next (fun e member => stored e (List.mem_cons_of_mem _ member)) loaded

theorem Filed.ofDocument {doc : Document} (loaded : ofDocument doc = .ok cat) : cat.Filed :=
  addAll_induction .empty (fun _ _ _ _ _ filed ran => filed.stores ran) loaded

end Loading

end Catalog

end SchemaOverlay

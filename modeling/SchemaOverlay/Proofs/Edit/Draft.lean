import SchemaOverlay.Edit.Draft
import SchemaOverlay.Proofs.Keyed

/-!
What the operations on a draft do. Each one that succeeds ends in one way: it puts an entry at one
place, a collection and a name, or it clears that place.
-/
namespace SchemaOverlay.Draft

open Sdl

def opened (kind : Kind) (name : Name) (d : Definition) : Draft where
  kind := kind
  name := name
  skeleton := kind.collections.foldl (fun d c => d.withEntries c []) d
  collections := Keyed.ofList (kind.collections.map fun c => (c, fileEntries (d.entries c)))

theorem ofDefinition_eq {d : Definition} {kind : Kind} {name : Name}
    (known : d.kind? = some kind) (named : d.name? = some name) :
    ofDefinition d = .ok (opened kind name d) := by
  simp only [ofDefinition, known, named]
  rfl

theorem ofDefinition_eq_ok_iff {d : Definition} {draft : Draft} :
    ofDefinition d = .ok draft ↔
      ∃ kind name, d.kind? = some kind ∧ d.name? = some name ∧ draft = opened kind name d := by
  constructor
  · intro made
    unfold ofDefinition at made
    split at made
    · rename_i kind name known named
      cases made
      exact ⟨kind, name, known, named, rfl⟩
    · cases made
  · rintro ⟨kind, name, known, named, rfl⟩
    exact ofDefinition_eq known named

def store (d : Draft) (c : Collection) (n : Name) : Option Entry → Draft
  | some e => d.setHeld c ((d.held c).insert n e)
  | none => d.setHeld c ((d.held c).erase n)

theorem held_of_get? {d : Draft} {c : Collection} {es : Entries}
    (found : d.collections.get? c = some es) : d.held c = es := by
  simp [held, found]

theorem get?_eq_ok_iff {d : Draft} {c : Collection} {n : Name} {e : Option Entry} :
    d.get? c n = .ok e ↔ ∃ es, d.collections.get? c = some es ∧ es.get? n = e := by
  unfold get? collection
  cases d.collections.get? c <;> simp [Functor.map, Except.map]

theorem has_eq_ok_iff {d : Draft} {c : Collection} {n : Name} {b : Bool} :
    d.has c n = .ok b ↔ ∃ es, d.collections.get? c = some es ∧ es.contains n = b := by
  unfold has collection
  cases d.collections.get? c <;> simp [Functor.map, Except.map]

theorem has_of_get? {d : Draft} {c : Collection} {n : Name} {e : Option Entry}
    (found : d.get? c n = .ok e) : d.has c n = .ok e.isSome := by
  obtain ⟨es, there, inside⟩ := get?_eq_ok_iff.mp found
  exact has_eq_ok_iff.mpr ⟨es, there, by rw [Keyed.contains, inside]⟩

theorem get?_collections_setHeld (d : Draft) (c k : Collection) (es : Entries) :
    (d.setHeld c es).collections.get? k = if c = k then some es else d.collections.get? k :=
  Keyed.get?_insert ..

theorem get?_collections_store (d : Draft) (c k : Collection) (n : Name) (e : Option Entry) :
    (d.store c n e).collections.get? k =
      if c = k then some (match e with
        | some e => (d.held c).insert n e
        | none => (d.held c).erase n)
      else d.collections.get? k := by
  cases e <;> exact get?_collections_setHeld ..

theorem get?_store_self (d : Draft) (c : Collection) (n : Name) (e : Option Entry) :
    (d.store c n e).get? c n = .ok e := by
  rw [get?_eq_ok_iff, get?_collections_store, if_pos rfl]
  cases e <;> simp [Keyed.get?_insert, Keyed.get?_erase]

theorem get?_store_of_ne {d : Draft} {c k : Collection} {n m : Name} {old : Option Entry}
    (e : Option Entry) (other : (c, n) ≠ (k, m)) (was : d.get? k m = .ok old) :
    (d.store c n e).get? k m = .ok old := by
  obtain ⟨es, found, inside⟩ := get?_eq_ok_iff.mp was
  rw [get?_eq_ok_iff, get?_collections_store]
  by_cases same : c = k
  · subst same
    have apart : n ≠ m := fun equal => other (by rw [equal])
    rw [if_pos rfl, held_of_get? found]
    cases e <;> simp [Keyed.get?_insert, Keyed.get?_erase, apart, inside]
  · rw [if_neg same]
    exact ⟨es, found, inside⟩

def absorb (d : Draft) (incoming : List (Collection × Entries)) : Draft :=
  incoming.foldl (fun d (c, es) => d.setHeld c (addMissing (d.held c) es)) d

def shed (d : Draft) (listed : List (Collection × Entries)) : Draft :=
  listed.foldl
    (fun d (c, names) =>
      match d.collections.get? c with
      | some es => d.setHeld c (dropListed es names)
      | none => d)
    d

section Operations

variable {d d' other : Draft} {c : Collection} {e : Entry} {n : Name}

theorem check_eq_ok_iff :
    d.check c e = .ok () ↔ d.supports c = true ∧ d.kind.admits c e = true := by
  unfold check
  cases d.supports c <;> cases d.kind.admits c e <;> simp

theorem create_eq_ok_iff :
    d.create c e = .ok d' ↔
      d.check c e = .ok () ∧ d.has c e.name = .ok false ∧ d' = d.store c e.name (some e) := by
  unfold create
  cases d.check c e with
  | error f => simp [bind, Except.bind]
  | ok u =>
    cases d.has c e.name with
    | error f => simp [bind, Except.bind]
    | ok present =>
      cases present with
      | true => simp [bind, Except.bind, throw, throwThe, MonadExceptOf.throw]
      | false => simp [bind, Except.bind, pure, Except.pure, file, store, eq_comm]

theorem replace_eq_ok_iff :
    d.replace c e = .ok d' ↔
      d.check c e = .ok () ∧ d.has c e.name = .ok true ∧ d' = d.store c e.name (some e) := by
  unfold replace
  cases d.check c e with
  | error f => simp [bind, Except.bind]
  | ok u =>
    cases d.has c e.name with
    | error f => simp [bind, Except.bind]
    | ok present =>
      cases present with
      | true => simp [bind, Except.bind, pure, Except.pure, file, store, eq_comm]
      | false => simp [bind, Except.bind, throw, throwThe, MonadExceptOf.throw]

theorem upsert_eq_ok_iff :
    d.upsert c e = .ok d' ↔ d.check c e = .ok () ∧ d' = d.store c e.name (some e) := by
  unfold upsert
  cases d.check c e <;> simp [bind, Except.bind, pure, Except.pure, file, store, eq_comm]

theorem delete_eq_ok_iff :
    d.delete c n = .ok d' ↔ d.supports c = true ∧ d' = d.store c n none := by
  unfold delete
  cases d.supports c <;> simp [store, eq_comm]

theorem remove_eq_ok_iff :
    d.remove c n = .ok d' ↔
      d.supports c = true ∧ (d.held c).contains n = true ∧ d' = d.store c n none := by
  unfold remove
  cases d.supports c <;> cases (d.held c).contains n <;> simp [store, eq_comm]

theorem extendWith_eq_ok_iff :
    d.extendWith other = .ok d' ↔
      d.kind = other.kind ∧
        d' = { d.absorb other.collections.pairs with
          skeleton := takeDescription (d.absorb other.collections.pairs).skeleton
            other.description? } := by
  unfold extendWith checkSameKind
  by_cases same : d.kind = other.kind
  · simp [same, bind, Except.bind, pure, Except.pure, absorb, eq_comm]
  · simp [same, bind, Except.bind]

theorem excludeWith_eq_ok_iff :
    d.excludeWith other = .ok d' ↔
      d.kind = other.kind ∧ d' = d.shed other.collections.pairs := by
  unfold excludeWith checkSameKind
  by_cases same : d.kind = other.kind
  · simp only [same, ↓reduceIte, bind, Except.bind, pure, Except.pure, Except.ok.injEq, true_and]
    exact eq_comm
  · simp [same, bind, Except.bind]

end Operations

end SchemaOverlay.Draft

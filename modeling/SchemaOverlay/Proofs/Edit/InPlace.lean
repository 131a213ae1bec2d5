import SchemaOverlay.Proofs.Edit.Refusal
import SchemaOverlay.Proofs.Overlay.Reload

/-!
The calls as they are carried out on a draft or a catalog that others see, write by write. Such a
call may have written before it fails: it files an empty collection to look into, drops an entry to
learn whether it was there, or works on a draft where it is filed. `Draft.exec_carryOut` and
`Catalog.exec_carryOut` say that nothing of this can be seen: a call that fails leaves all as it was.
-/
namespace SchemaOverlay

open Sdl

/-- A computation that writes to a state. What it wrote before it failed stays written. -/
abbrev InPlace (σ : Type) := ExceptT EditError (StateM σ)

namespace InPlace

variable {σ α β : Type}

def exec (x : InPlace σ α) (s : σ) : Except EditError α × σ := x.run.run s

def ofResult (x : Except EditError α) : InPlace σ α := MonadExcept.ofExcept x

def allOrNothing (s : σ) : Except EditError σ → Except EditError PUnit × σ
  | .ok s' => (.ok ⟨⟩, s')
  | .error e => (.error e, s)

variable {x : InPlace σ α} {f : α → InPlace σ β} {s s' : σ} {a : α} {e : EditError}

theorem exec_bind_ok (done : x.exec s = (.ok a, s')) : (x >>= f).exec s = (f a).exec s' := by
  simp only [exec] at done ⊢
  rw [ExceptT.run_bind, StateT.run_bind, done]
  rfl

theorem exec_bind_error (failed : x.exec s = (.error e, s')) :
    (x >>= f).exec s = (.error e, s') := by
  simp only [exec] at failed ⊢
  rw [ExceptT.run_bind, StateT.run_bind, failed]
  rfl

theorem exec_modify (g : σ → σ) (s : σ) :
    (modify g : InPlace σ PUnit).exec s = (.ok ⟨⟩, g s) :=
  rfl

theorem exec_ofResult (r : Except EditError α) (s : σ) : (ofResult r).exec s = (r, s) := by
  cases r <;> rfl

/-- A check before anything is written. -/
theorem exec_checked {r : Except EditError α} {f : α → InPlace σ PUnit} {g : α → Except EditError σ}
    (rest : ∀ a, (f a).exec s = allOrNothing s (g a)) :
    (ofResult r >>= f).exec s = allOrNothing s (r >>= g) := by
  cases r with
  | error e => exact exec_bind_error (exec_ofResult _ s)
  | ok a => exact (exec_bind_ok (exec_ofResult _ s)).trans (rest a)

theorem exec_get_bind (f : σ → InPlace σ β) (s : σ) : (get >>= f).exec s = (f s).exec s :=
  rfl

theorem exec_forM {ι : Type} {g : ι → InPlace σ PUnit} {next : σ → ι → σ}
    (each : ∀ i s, (g i).exec s = (.ok ⟨⟩, next s i)) (is : List ι) (s : σ) :
    (is.forM g).exec s = (.ok ⟨⟩, is.foldl next s) := by
  induction is generalizing s with
  | nil => rfl
  | cons i rest ih =>
    rw [List.forM_eq_forM, List.forM_cons, exec_bind_ok (each i s)]
    exact ih (next s i)

end InPlace

namespace Keyed

variable {κ α : Type} [DecidableEq κ] {m : Keyed κ α} {k : κ}

theorem insert_insert (m : Keyed κ α) (k : κ) (a b : α) :
    (m.insert k a).insert k b = m.insert k b := by
  obtain ⟨pairs⟩ := m
  simp only [insert, mk.injEq]
  induction pairs with
  | nil => simp [insertPair]
  | cons p rest ih =>
    obtain ⟨l, c⟩ := p
    by_cases same : l = k <;> simp [insertPair, same, ih]

theorem erase_of_not_mem (absent : k ∉ m.keys) : m.erase k = m := by
  refine eq_of_pairs (List.filter_eq_self.mpr fun p member => ?_)
  refine decide_eq_true fun same => absent ?_
  exact same ▸ List.mem_map_of_mem member

end Keyed

open InPlace

namespace Draft

variable {d : Draft} {c : Collection} {es : Entries} {n : Name}

theorem setHeld_setHeld (d : Draft) (c : Collection) (es fs : Entries) :
    (d.setHeld c es).setHeld c fs = d.setHeld c fs := by
  simp only [setHeld, Keyed.insert_insert]

def slot (c : Collection) : InPlace Draft Entries := do
  modify fun d => d.setHeld c (d.held c)
  return (← get).held c

def insertEntry (c : Collection) (e : Entry) : InPlace Draft PUnit := do
  let es ← slot c
  modify fun d => d.setHeld c (es.insert e.name e)

def takeOut (c : Collection) (n : Name) : InPlace Draft Bool := do
  let d ← get
  if !d.supports c then throw (d.notSupported c)
  let es ← slot c
  modify fun d => d.setHeld c (es.erase n)
  return es.contains n

def takeOver (other : Draft) : InPlace Draft PUnit := do
  other.collections.pairs.forM fun (c, incoming) => do
    let _ ← slot c
    incoming.pairs.forM fun (n, e) => modify fun d => d.setHeld c ((d.held c).insertNew n e)
  modify fun d => { d with skeleton := takeDescription d.skeleton other.description? }

def giveUp (other : Draft) : InPlace Draft PUnit :=
  other.collections.pairs.forM fun (c, listed) => do
    if ((← get).collections.get? c).isSome then
      listed.keys.forM fun n => modify fun d => d.setHeld c ((d.held c).erase n)

def carryOut : Move → InPlace Draft PUnit
  | .edit c (.create e) => do
    let d ← get
    ofResult (d.check c e)
    if ← ofResult (d.has c e.name) then throw (.duplicateEntry c d.name e.name)
    insertEntry c e
  | .edit c (.replace e) => do
    let d ← get
    ofResult (d.check c e)
    unless ← ofResult (d.has c e.name) do throw (.entryNotFound c d.name e.name)
    insertEntry c e
  | .edit c (.upsert e) => do
    ofResult ((← get).check c e)
    insertEntry c e
  | .edit c (.delete n) => do
    let _ ← takeOut c n
  | .edit c (.remove n) => do
    let there ← takeOut c n
    unless there do throw (.entryNotFound c (← get).name n)
  | .extend other => do
    ofResult ((← get).checkSameKind other)
    takeOver other
  | .exclude other => do
    ofResult ((← get).checkSameKind other)
    giveUp other

theorem exec_slot (c : Collection) (d : Draft) :
    (slot c).exec d = (.ok (d.held c), d.setHeld c (d.held c)) := by
  have own : (d.setHeld c (d.held c)).held c = d.held c := by rw [held_setHeld, if_pos rfl]
  calc (slot c).exec d
      = (.ok ((d.setHeld c (d.held c)).held c), d.setHeld c (d.held c)) := rfl
    _ = _ := by rw [own]

theorem exec_insertEntry (c : Collection) (e : Entry) (d : Draft) :
    (insertEntry c e).exec d = (.ok ⟨⟩, d.file c e) := by
  rw [insertEntry, exec_bind_ok (exec_slot c d), exec_modify, setHeld_setHeld]
  rfl

theorem exec_takeOut_of_unsupported (unsupported : d.supports c = false) :
    (takeOut c n).exec d = (.error (d.notSupported c), d) := by
  simp only [takeOut, exec_get_bind, unsupported]
  rfl

theorem exec_takeOut (supported : d.supports c = true) :
    (takeOut c n).exec d =
      (.ok ((d.held c).contains n), d.setHeld c ((d.held c).erase n)) := by
  simp only [takeOut, exec_get_bind, supported, Bool.not_true, Bool.false_eq_true, ↓reduceIte]
  rw [exec_bind_ok (exec_slot c d), exec_bind_ok (exec_modify _ _), setHeld_setHeld]
  rfl

theorem foldl_insertNew (pairs : List (Name × Entry)) (d : Draft) (c : Collection)
    (es : Entries) :
    pairs.foldl (fun d (p : Name × Entry) => d.setHeld c ((d.held c).insertNew p.1 p.2))
        (d.setHeld c es) =
      d.setHeld c (pairs.foldl (fun es p => es.insertNew p.1 p.2) es) := by
  induction pairs generalizing es with
  | nil => rfl
  | cons p rest ih =>
    rw [List.foldl_cons, List.foldl_cons, held_setHeld, if_pos rfl, setHeld_setHeld, ih]

theorem foldl_erase (dropped : List Name) (d : Draft) (c : Collection) (es : Entries) :
    dropped.foldl (fun d n => d.setHeld c ((d.held c).erase n)) (d.setHeld c es) =
      d.setHeld c (dropped.foldl Keyed.erase es) := by
  induction dropped generalizing es with
  | nil => rfl
  | cons n rest ih =>
    rw [List.foldl_cons, List.foldl_cons, held_setHeld, if_pos rfl, setHeld_setHeld, ih]

theorem exec_takeOver (other d : Draft) :
    (takeOver other).exec d =
      (.ok ⟨⟩, { d.absorb other.collections.pairs with
        skeleton := takeDescription (d.absorb other.collections.pairs).skeleton
          other.description? }) := by
  have each : ∀ (p : Collection × Entries) (d : Draft),
      (do
        let _ ← slot p.1
        p.2.pairs.forM fun (n, e) =>
          modify fun d => d.setHeld p.1 ((d.held p.1).insertNew n e)
        : InPlace Draft PUnit).exec d =
        (.ok ⟨⟩, d.setHeld p.1 (addMissing (d.held p.1) p.2)) := by
    intro p d
    rw [exec_bind_ok (exec_slot p.1 d), exec_forM fun q d => exec_modify _ d, foldl_insertNew]
    rfl
  rw [takeOver, exec_bind_ok (exec_forM each _ d), exec_modify]
  rfl

theorem exec_giveUp (other d : Draft) :
    (giveUp other).exec d = (.ok ⟨⟩, d.shed other.collections.pairs) := by
  refine exec_forM (fun p d => ?_) _ d
  rw [exec_get_bind]
  cases found : d.collections.get? p.1 with
  | none => simp only [found, Option.isSome_none, Bool.false_eq_true, ↓reduceIte]; rfl
  | some es =>
    have filed : d.setHeld p.1 es = d := by simp only [setHeld, Keyed.insert_get? found]
    simp only [found, Option.isSome_some, ↓reduceIte]
    rw [exec_forM fun n d => exec_modify _ d]
    conv_lhs => rw [← filed]
    rw [foldl_erase]
    rfl

theorem exec_drop (formed : d.WellFormed) (c : Collection) (n : Name) :
    (carryOut (.edit c (.remove n))).exec d = allOrNothing d (d.remove c n) := by
  rw [carryOut, remove]
  cases supported : d.supports c with
  | false => exact exec_bind_error (exec_takeOut_of_unsupported supported)
  | true =>
    rw [exec_bind_ok (exec_takeOut supported)]
    cases there : (d.held c).contains n with
    | true => rfl
    | false =>
      -- What was dropped was not there, and the collection that was filed was.
      have absent : n ∉ (d.held c).keys := fun member => by
        simp [Keyed.contains_iff_mem_keys.mpr member] at there
      have same : d.setHeld c ((d.held c).erase n) = d := by
        rw [Keyed.erase_of_not_mem absent, formed.setHeld_held supported]
      rw [same]
      rfl

theorem exec_carryOut (formed : d.WellFormed) (m : Move) :
    (carryOut m).exec d = allOrNothing d (d.attempt m) := by
  cases m with
  | edit c asked =>
    cases asked with
    | create e =>
      refine exec_checked fun _ => exec_checked fun there => ?_
      cases there with
      | true => rfl
      | false => exact exec_insertEntry c e d
    | replace e =>
      refine exec_checked fun _ => exec_checked fun there => ?_
      cases there with
      | true => exact exec_insertEntry c e d
      | false => rfl
    | upsert e => exact exec_checked fun _ => exec_insertEntry c e d
    | delete n =>
      rw [carryOut, attempt, edit, delete]
      cases supported : d.supports c with
      | false => exact exec_bind_error (exec_takeOut_of_unsupported supported)
      | true => exact exec_bind_ok (exec_takeOut supported)
    | remove n => exact exec_drop formed c n
  | extend other => exact exec_checked fun _ => exec_takeOver other d
  | exclude other => exact exec_checked fun _ => exec_giveUp other d

end Draft

namespace Catalog

variable {cat : Catalog} {r : Registry} {n : Name}

theorem setRegistry_registry (cat : Catalog) (r : Registry) :
    cat.setRegistry r (cat.registry r) = cat := by
  cases r <;> rfl

theorem put_get? {draft : Draft} (held : cat.get? r n = some draft) :
    cat.put r n draft = cat := by
  rw [put, Keyed.insert_get? held, setRegistry_registry]

theorem delete_of_absent (absent : n ∉ cat.names r) : cat.delete r n = cat := by
  rw [delete, Keyed.erase_of_not_mem absent, setRegistry_registry]

def takeOut (r : Registry) (n : Name) : InPlace Catalog Bool := do
  let there := (← get).has r n
  modify fun cat => cat.delete r n
  return there

def within (r : Registry) (n : Name) (call : InPlace Draft PUnit) : InPlace Catalog PUnit := do
  let draft ← ofResult ((← get).existing r n)
  let (result, left) := call.exec draft
  modify fun cat => cat.put r n left
  ofResult result

def carryOut (r : Registry) : Request → InPlace Catalog PUnit
  | .create d => do
    let draft ← ofResult (draftFor r d)
    if (← get).has r draft.name then throw (.alreadyExists draft.name r)
    modify fun cat => cat.file r draft
  | .replace d => do
    let draft ← ofResult (draftFor r d)
    unless (← get).has r draft.name do throw (.notFound draft.name r)
    modify fun cat => cat.file r draft
  | .upsert d => do
    let draft ← ofResult (draftFor r d)
    modify fun cat => cat.file r draft
  | .extend d => do
    let incoming ← ofResult (draftFor r d)
    within r incoming.name (Draft.carryOut (.extend incoming))
  | .exclude d => do
    let incoming ← ofResult (draftFor r d)
    within r incoming.name (Draft.carryOut (.exclude incoming))
  | .delete n => do
    let _ ← takeOut r n
  | .remove n => do
    let there ← takeOut r n
    unless there do throw (.notFound n r)

theorem exec_takeOut (cat : Catalog) (r : Registry) (n : Name) :
    (takeOut r n).exec cat = (.ok (cat.has r n), cat.delete r n) :=
  rfl

theorem exec_within {call : InPlace Draft PUnit} {result : Draft → Except EditError Draft}
    (whole : ∀ draft, cat.get? r n = some draft →
      call.exec draft = allOrNothing draft (result draft)) :
    (within r n call).exec cat =
      allOrNothing cat do
        let draft ← cat.existing r n
        return cat.put r n (← result draft) := by
  rw [within, exec_get_bind]
  cases held : cat.get? r n with
  | none =>
    have missing : cat.existing r n = .error (.notFound n r) := by rw [existing, held]
    rw [missing]
    rfl
  | some draft =>
    have found : cat.existing r n = .ok draft := by rw [existing, held]
    rw [found, exec_bind_ok (exec_ofResult _ cat), whole draft held]
    cases made : result draft with
    | ok draft' =>
      simp only [bind, Except.bind, made]
      rfl
    | error err =>
      simp only [bind, Except.bind, made]
      change (Except.error err, cat.put r n draft) = (Except.error err, cat)
      rw [put_get? held]

theorem exec_carryOut (filed : cat.Filed) (q : Request) :
    (carryOut r q).exec cat = allOrNothing cat (cat.attempt r q) := by
  cases q with
  | create d =>
    refine exec_checked fun incoming => ?_
    rw [exec_get_bind]
    cases cat.has r incoming.name <;> rfl
  | replace d =>
    refine exec_checked fun incoming => ?_
    rw [exec_get_bind]
    cases cat.has r incoming.name <;> rfl
  | upsert d => exact exec_checked fun _ => rfl
  | extend d =>
    exact exec_checked fun incoming => exec_within fun first held =>
      first.exec_carryOut (filed.get? held).formed (.extend incoming)
  | exclude d =>
    exact exec_checked fun incoming => exec_within fun first held =>
      first.exec_carryOut (filed.get? held).formed (.exclude incoming)
  | delete n => rfl
  | remove n =>
    rw [carryOut, exec_bind_ok (exec_takeOut cat r n), attempt, remove]
    cases there : cat.has r n with
    | true => rfl
    | false =>
      have absent : n ∉ cat.names r := fun member => by
        have present : cat.has r n = true := Keyed.contains_iff_mem_keys.mpr member
        simp [present] at there
      rw [delete_of_absent absent]
      rfl

end Catalog

/-- When calls fail, and what a call that fails leaves. A call on a draft or on a catalog fails with
an error exactly if that error is the reason to refuse it, and reading a collection fails exactly if
the kind has none such. Carried out in place, a call that succeeds leaves what it should make, and
one that fails leaves all as it was, the order included. -/
theorem calls_refused_exactly :
    (∀ node d, Draft.ReachedFrom node d →
      (∀ m err, d.attempt m = .error err ↔ d.Refuses m err) ∧
      (∀ c n err, (d.has c n = .error err ↔ d.Lacks c err) ∧
        (d.get? c n = .error err ↔ d.Lacks c err) ∧
        (d.entries c = .error err ↔ d.Lacks c err)) ∧
      ∀ m, (Draft.carryOut m).exec d = allOrNothing d (d.attempt m)) ∧
    ∀ cat : Catalog, cat.Reached → ∀ r,
      (∀ q err, cat.attempt r q = .error err ↔ cat.Refuses r q err) ∧
      ∀ q, (Catalog.carryOut r q).exec cat = allOrNothing cat (cat.attempt r q) := by
  constructor
  · intro node d reached
    have formed := reached.isOf.formed
    exact ⟨fun m err => Draft.attempt_eq_error_iff formed,
      fun c n err => Draft.reads_eq_error_iff formed, Draft.exec_carryOut formed⟩
  · intro cat reached r
    exact ⟨fun q err => Catalog.attempt_eq_error_iff reached.filed,
      Catalog.exec_carryOut reached.filed⟩

def userUnion : Definition := .type none ⟨"User", [], .union ["Page"]⟩

def userUnionDraft : Draft := .opened (.type .union) "User" userUnion

/-- A union is asked to give up a member that it has not, and an object to give up what a union of
its name lists. -/
theorem calls_refused_exactly_userUnion :
    (Draft.carryOut (.edit .types (.remove "Post"))).exec userUnionDraft =
      (.error (.entryNotFound .types "User" "Post"), userUnionDraft) ∧
    ∃ cat, Catalog.ofDocument Catalog.splitUser = .ok cat ∧
      (Catalog.carryOut .definitions (.exclude userUnion)).exec cat =
        (.error (.kindMismatch "User" (.type .object) (.type .union)), cat) := by
  obtain ⟨refused, _, left⟩ := calls_refused_exactly.1 userUnion userUnionDraft (.opened rfl)
  have absent : userUnionDraft.Refuses (.edit .types (.remove "Post"))
      (.entryNotFound .types "User" "Post") :=
    .nothingToRemove (by decide) (by decide)
  have loaded : Catalog.ofDocument Catalog.splitUser = .ok _ := rfl
  obtain ⟨refusedThere, leftThere⟩ :=
    calls_refused_exactly.2 _ (.ofDocument loaded) .definitions
  refine ⟨?_, _, loaded, ?_⟩
  · rw [left, (refused _ _).mpr absent]
    rfl
  · rw [leftThere, (refusedThere _ _).mpr (.unmergeable rfl rfl rfl rfl rfl rfl (by decide))]
    rfl

end SchemaOverlay

import SchemaOverlay.Edit.Catalog
import SchemaOverlay.Proofs.Keyed

/-!
Every operation on a catalog ends in one way: it puts a draft at one place, a registry and a name,
or it clears that place. `Catalog.store` is that ending, and its lemmas say what it changes and what
it leaves alone.
-/
namespace SchemaOverlay.Catalog

open Sdl

def store (cat : Catalog) (r : Registry) (n : Name) : Option Draft → Catalog
  | some draft => cat.put r n draft
  | none => cat.delete r n

theorem registry_setRegistry (cat : Catalog) (r s : Registry) (drafts : Keyed Name Draft) :
    (cat.setRegistry r drafts).registry s = if r = s then drafts else cat.registry s := by
  cases r <;> cases s <;> rfl

theorem get?_store (cat : Catalog) (r s : Registry) (n m : Name) (held : Option Draft) :
    (cat.store r n held).get? s m = if r = s ∧ n = m then held else cat.get? s m := by
  by_cases here : r = s
  · subst here
    cases held with
    | none => simp [store, delete, get?, registry_setRegistry, Keyed.get?_erase]
    | some draft => simp [store, put, get?, registry_setRegistry, Keyed.get?_insert]
  · cases held <;> simp [store, put, delete, get?, registry_setRegistry, here]

theorem get?_store_self (cat : Catalog) (r : Registry) (n : Name) (held : Option Draft) :
    (cat.store r n held).get? r n = held := by
  simp [get?_store]

theorem get?_store_of_ne (cat : Catalog) {r s : Registry} {n m : Name} (held : Option Draft)
    (other : (r, n) ≠ (s, m)) : (cat.store r n held).get? s m = cat.get? s m := by
  rw [get?_store, if_neg]
  rintro ⟨rfl, rfl⟩
  exact other rfl

theorem registry_store_of_ne (cat : Catalog) {r s : Registry} (n : Name) (held : Option Draft)
    (other : r ≠ s) : (cat.store r n held).registry s = cat.registry s := by
  cases held <;> simp [store, put, delete, registry_setRegistry, other]

theorem names_store_some (cat : Catalog) (r : Registry) (n : Name) (draft : Draft) :
    (cat.store r n (some draft)).names r =
      if n ∈ cat.names r then cat.names r else cat.names r ++ [n] := by
  have filed : (cat.store r n (some draft)).names r = ((cat.registry r).insert n draft).keys := by
    simp [store, put, names, registry_setRegistry]
  by_cases present : n ∈ cat.names r
  · rw [if_pos present, filed, Keyed.keys_insert_of_mem draft present]
    rfl
  · rw [if_neg present, filed, Keyed.keys_insert_of_not_mem draft present]
    rfl

theorem names_store_none (cat : Catalog) (r : Registry) (n : Name) :
    (cat.store r n none).names r = (cat.names r).filter (· ≠ n) := by
  simp [store, delete, names, registry_setRegistry, Keyed.keys_erase]

theorem filter_pairs_store (keep : Name → Bool) (cat : Catalog) (r s : Registry) (n : Name)
    (held : Option Draft) (dropped : r = s → keep n = false) :
    ((cat.store r n held).registry s).pairs.filter (fun p => keep p.1) =
      (cat.registry s).pairs.filter (fun p => keep p.1) := by
  by_cases here : r = s
  · cases held with
    | none =>
      simpa [store, delete, registry_setRegistry, here] using
        Keyed.filter_pairs_erase keep (cat.registry s) (dropped here)
    | some draft =>
      simpa [store, put, registry_setRegistry, here] using
        Keyed.filter_pairs_insert keep (cat.registry s) draft (dropped here)
  · rw [registry_store_of_ne cat n held here]

theorem has_eq_isSome (cat : Catalog) (r : Registry) (n : Name) :
    cat.has r n = (cat.get? r n).isSome :=
  rfl

theorem mem_names_of_get? {cat : Catalog} {r : Registry} {n : Name} {draft : Draft}
    (found : cat.get? r n = some draft) : n ∈ cat.names r :=
  Keyed.mem_keys_of_get? found

section Operations

variable {cat : Catalog} {r : Registry} {d : Definition} {draft : Draft}
  (made : draftFor r d = .ok draft)

include made

theorem create_eq :
    cat.create r d =
      match cat.get? r draft.name with
      | none => .ok (cat.store r draft.name (some draft))
      | some _ => .error (.alreadyExists draft.name r) := by
  have present := has_eq_isSome cat r draft.name
  cases held : cat.get? r draft.name <;> rw [held] at present <;>
    simp only [create, made, bind, Except.bind, present] <;> rfl

theorem replace_eq :
    cat.replace r d =
      match cat.get? r draft.name with
      | some _ => .ok (cat.store r draft.name (some draft))
      | none => .error (.notFound draft.name r) := by
  have present := has_eq_isSome cat r draft.name
  cases held : cat.get? r draft.name <;> rw [held] at present <;>
    simp only [replace, made, bind, Except.bind, present] <;> rfl

theorem upsert_eq : cat.upsert r d = .ok (cat.store r draft.name (some draft)) := by
  simp only [upsert, made]
  rfl

theorem extend_eq :
    cat.extend r d =
      match cat.get? r draft.name with
      | some first => (first.extendWith draft).map (cat.store r draft.name <| some ·)
      | none => .error (.notFound draft.name r) := by
  cases held : cat.get? r draft.name with
  | none => simp [extend, made, existing, held, bind, Except.bind]
  | some first =>
    simp only [extend, made, existing, held, bind, Except.bind]
    cases first.extendWith draft <;> rfl

theorem exclude_eq :
    cat.exclude r d =
      match cat.get? r draft.name with
      | some first => (first.excludeWith draft).map (cat.store r draft.name <| some ·)
      | none => .error (.notFound draft.name r) := by
  cases held : cat.get? r draft.name with
  | none => simp [exclude, made, existing, held, bind, Except.bind]
  | some first =>
    simp only [exclude, made, existing, held, bind, Except.bind]
    cases first.excludeWith draft <;> rfl

end Operations

theorem remove_eq (cat : Catalog) (r : Registry) (n : Name) :
    cat.remove r n =
      match cat.get? r n with
      | some _ => .ok (cat.store r n none)
      | none => .error (.notFound n r) := by
  cases held : cat.get? r n <;> simp [remove, has_eq_isSome, held, store]

end SchemaOverlay.Catalog

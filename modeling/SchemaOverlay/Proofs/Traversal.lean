import Mathlib.Data.List.Forall2

/-!
Steps that may fail, one after another: what such a run over a list comes to. It gives one result for
each item, in order, or it fails at the first item that does.
-/
namespace SchemaOverlay

variable {α β ε : Type} {f : α → Except ε β}

theorem exists_of_bind_eq_ok {x : Except ε α} {b : β} (done : x >>= f = .ok b) :
    ∃ a, x = .ok a ∧ f a = .ok b := by
  cases x with
  | error e => cases done
  | ok a => exact ⟨a, rfl, done⟩

theorem mapM_eq_ok_iff {l : List α} {r : List β} :
    l.mapM f = .ok r ↔ List.Forall₂ (fun a b => f a = .ok b) l r := by
  induction l generalizing r with
  | nil => cases r <;> simp [pure, Except.pure]
  | cons a rest ih =>
    rw [List.mapM_cons]
    cases first : f a with
    | error e => cases r <;> simp [bind, Except.bind, first]
    | ok b =>
      cases later : rest.mapM f with
      | error e => cases r <;> simp [bind, Except.bind, ← ih, first, later]
      | ok bs => cases r <;> simp [bind, Except.bind, pure, Except.pure, ← ih, first, later]

theorem exists_of_mem_of_forall₂ {R : α → β → Prop} {l : List α} {r : List β}
    (related : List.Forall₂ R l r) {a : α} (member : a ∈ l) : ∃ b ∈ r, R a b := by
  induction related with
  | nil => cases member
  | cons now _ ih =>
    rcases List.mem_cons.mp member with rfl | later
    · exact ⟨_, List.mem_cons_self, now⟩
    · obtain ⟨b, listed, found⟩ := ih later
      exact ⟨b, List.mem_cons_of_mem _ listed, found⟩

def First (P : α → Prop) (l : List α) (a : α) : Prop :=
  ∃ before after, l = before ++ a :: after ∧ P a ∧ ∀ b ∈ before, ¬ P b

theorem First.mem {P : α → Prop} {l : List α} {a : α} (first : First P l a) : a ∈ l ∧ P a := by
  obtain ⟨before, after, rfl, holds, _⟩ := first
  exact ⟨by simp, holds⟩

theorem First.congr {P Q : α → Prop} {l : List α} {a : α} (same : ∀ b ∈ l, (P b ↔ Q b)) :
    First P l a ↔ First Q l a := by
  refine exists₂_congr fun before after => and_congr_right fun split => ?_
  subst split
  refine and_congr (same a (by simp)) (forall₂_congr fun b earlier => not_congr (same b ?_))
  exact List.mem_append_left _ earlier

theorem find?_eq_some_iff_first {p : α → Bool} {l : List α} {a : α} :
    l.find? p = some a ↔ First (fun a => p a = true) l a := by
  rw [List.find?_eq_some_iff_append, First]
  simp only [Bool.not_eq_eq_eq_not, Bool.not_true, Bool.not_eq_true]
  constructor
  · rintro ⟨holds, before, after, split, none⟩
    exact ⟨before, after, split, holds, none⟩
  · rintro ⟨before, after, split, holds, none⟩
    exact ⟨holds, before, after, split, none⟩

theorem mapM_eq_error_iff {l : List α} {e : ε} :
    l.mapM f = .error e ↔ ∃ a, First (fun a => ∃ e, f a = .error e) l a ∧ f a = .error e := by
  induction l with
  | nil =>
    constructor
    · intro failed
      cases failed
    · rintro ⟨a, first, _⟩
      cases first.mem.1
  | cons a rest ih =>
    rw [List.mapM_cons]
    cases now : f a with
    | error g =>
      constructor
      · intro failed
        cases failed
        exact ⟨a, ⟨[], rest, rfl, ⟨e, now⟩, by simp⟩, now⟩
      · rintro ⟨b, ⟨before, after, split, _, none⟩, failed⟩
        cases before with
        | nil =>
          cases split
          rw [now] at failed
          cases failed
          rfl
        | cons c before =>
          cases split
          exact absurd ⟨g, now⟩ (none a (by simp))
    | ok b =>
      have tail : (Except.ok b >>= fun b => rest.mapM f >>= fun bs => pure (b :: bs)) = .error e ↔
          rest.mapM f = .error e := by
        cases rest.mapM f <;> simp [bind, Except.bind, pure, Except.pure]
      rw [tail, ih]
      constructor
      · rintro ⟨c, ⟨before, after, rfl, failing, none⟩, failed⟩
        refine ⟨c, ⟨a :: before, after, rfl, failing, ?_⟩, failed⟩
        intro d member
        rcases List.mem_cons.mp member with rfl | earlier
        · simp [now]
        · exact none d earlier
      · rintro ⟨c, ⟨before, after, split, failing, none⟩, failed⟩
        cases before with
        | nil =>
          cases split
          rw [now] at failed
          cases failed
        | cons d before =>
          cases split
          exact ⟨c, ⟨before, after, rfl, failing, fun b member =>
            none b (List.mem_cons_of_mem _ member)⟩, failed⟩

end SchemaOverlay

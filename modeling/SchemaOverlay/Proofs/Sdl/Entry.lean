import Mathlib.Data.List.Basic
import SchemaOverlay.Sdl.Entry

/-!
Each collection of a definition can be read and written on its own. A write of entries that the
collection admits is read back whole; writes to two collections do not touch each other; and no
write changes the kind, the name or the description.
-/
namespace SchemaOverlay.Sdl

theorem map_filterMap_eq {α : Type} (wrap : α → Entry) (back : Entry → Option α) {es : List Entry}
    (shaped : ∀ e ∈ es, (back e).map wrap = some e) : (es.filterMap back).map wrap = es := by
  induction es with
  | nil => rfl
  | cons e rest ih =>
    have first := shaped e (by simp)
    have later := ih fun e member => shaped e (by simp [member])
    obtain ⟨a, kept, wrapped⟩ := Option.map_eq_some_iff.mp first
    rw [List.filterMap_cons_some kept, List.map_cons, later, wrapped]

theorem filterMap_map_eq {α : Type} (wrap : α → Entry) (back : Entry → Option α)
    (kept : ∀ a, back (wrap a) = some a) (as : List α) : (as.map wrap).filterMap back = as := by
  induction as with
  | nil => rfl
  | cons a rest ih => rw [List.map_cons, List.filterMap_cons_some (kept a), ih]

theorem Kind.admits_extension (form : TypeForm) (c : Collection) (e : Entry) :
    (Kind.extension form).admits c e = (Kind.type form).admits c e := by
  cases form <;> rfl

namespace TypeBody

variable {b : TypeBody} {c k : Collection} {es fs : List Entry}

theorem form_withEntries (b : TypeBody) (c : Collection) (es : List Entry) :
    (b.withEntries c es).form = b.form := by
  cases b <;> cases c <;> rfl

theorem entries_withEntries_self (supported : c ∈ b.form.collections) (own : c ≠ .directives)
    (admitted : ∀ e ∈ es, (Kind.type b.form).admits c e = true) :
    (b.withEntries c es).entries c = es := by
  cases b <;> cases c <;> simp only [form, TypeForm.collections, List.mem_cons, List.not_mem_nil,
    reduceCtorEq, or_self, or_false, or_true, ne_eq, not_true_eq_false] at supported own
  -- What is left are the collections that a body has: it admits one shape, and that is kept.
  all_goals
    refine map_filterMap_eq _ _ fun e member => ?_
    have shape := admitted e member
    cases e <;> first | rfl | cases shape

theorem entries_withEntries_of_ne (b : TypeBody) (es : List Entry) (other : c ≠ k) :
    (b.withEntries c es).entries k = b.entries k := by
  cases b <;> cases c <;> cases k <;> first | rfl | exact absurd rfl other

theorem withEntries_entries (b : TypeBody) (c : Collection) :
    b.withEntries c (b.entries c) = b := by
  cases b <;> cases c <;> try rfl
  all_goals
    simp only [withEntries, entries]
    rw [filterMap_map_eq]
    exact fun _ => rfl

theorem withEntries_withEntries (b : TypeBody) (c : Collection) (es fs : List Entry) :
    (b.withEntries c es).withEntries c fs = b.withEntries c fs := by
  cases b <;> cases c <;> rfl

theorem withEntries_comm (b : TypeBody) (es fs : List Entry) (other : c ≠ k) :
    (b.withEntries c es).withEntries k fs = (b.withEntries k fs).withEntries c es := by
  cases b <;> cases c <;> cases k <;> first | rfl | exact absurd rfl other

theorem entries_of_unsupported (unsupported : c ∉ b.form.collections) : b.entries c = [] := by
  cases b <;> cases c <;> first
    | rfl
    | exact absurd (by simp [form, TypeForm.collections]) unsupported

theorem admits_of_mem_entries {e : Entry} (member : e ∈ b.entries c) :
    (Kind.type b.form).admits c e = true := by
  cases b <;> cases c <;> simp only [entries, List.mem_map, List.not_mem_nil] at member
  all_goals
    obtain ⟨a, _, rfl⟩ := member
    rfl

end TypeBody

namespace TypeNode

variable {node : TypeNode} {c k : Collection} {es : List Entry}

theorem entries_of_ne (node : TypeNode) (own : c ≠ .directives) :
    node.entries c = node.body.entries c := by
  cases c <;> first | rfl | exact absurd rfl own

theorem withEntries_of_ne (node : TypeNode) (es : List Entry) (own : c ≠ .directives) :
    node.withEntries c es = { node with body := node.body.withEntries c es } := by
  cases c <;> first | rfl | exact absurd rfl own

theorem form_withEntries (node : TypeNode) (c : Collection) (es : List Entry) :
    (node.withEntries c es).body.form = node.body.form := by
  cases c <;> first | rfl | exact TypeBody.form_withEntries ..

theorem name_withEntries (node : TypeNode) (c : Collection) (es : List Entry) :
    (node.withEntries c es).name = node.name := by
  cases c <;> rfl

theorem entries_withEntries_self (supported : c ∈ node.body.form.collections)
    (admitted : ∀ e ∈ es, (Kind.type node.body.form).admits c e = true) :
    (node.withEntries c es).entries c = es := by
  by_cases own : c = .directives
  · subst own
    refine map_filterMap_eq _ _ fun e member => ?_
    have shape := admitted e member
    cases e <;> first | rfl | cases shape
  · rw [withEntries_of_ne node es own, entries_of_ne _ own]
    exact TypeBody.entries_withEntries_self supported own admitted

theorem entries_withEntries_of_ne (node : TypeNode) (es : List Entry) (other : c ≠ k) :
    (node.withEntries c es).entries k = node.entries k := by
  by_cases own : c = .directives
  · subst own
    rw [entries_of_ne _ (Ne.symm other), entries_of_ne _ (Ne.symm other)]
    rfl
  · rw [withEntries_of_ne node es own]
    by_cases read : k = .directives
    · subst read
      rfl
    · rw [entries_of_ne _ read, entries_of_ne _ read]
      exact TypeBody.entries_withEntries_of_ne node.body es other

theorem withEntries_entries (node : TypeNode) (c : Collection) :
    node.withEntries c (node.entries c) = node := by
  by_cases own : c = .directives
  · subst own
    simp only [withEntries, entries]
    rw [filterMap_map_eq]
    exact fun _ => rfl
  · rw [withEntries_of_ne node _ own, entries_of_ne node own, TypeBody.withEntries_entries]

theorem withEntries_withEntries (node : TypeNode) (c : Collection) (es fs : List Entry) :
    (node.withEntries c es).withEntries c fs = node.withEntries c fs := by
  by_cases own : c = .directives
  · subst own
    rfl
  · simp only [withEntries_of_ne _ _ own, TypeBody.withEntries_withEntries]

theorem withEntries_comm (node : TypeNode) (es fs : List Entry) (other : c ≠ k) :
    (node.withEntries c es).withEntries k fs = (node.withEntries k fs).withEntries c es := by
  by_cases first : c = .directives
  · subst first
    rw [withEntries_of_ne _ fs (Ne.symm other), withEntries_of_ne _ fs (Ne.symm other)]
    rfl
  · rw [withEntries_of_ne _ es first, withEntries_of_ne _ es first]
    by_cases second : k = .directives
    · subst second
      rfl
    · rw [withEntries_of_ne _ fs second, withEntries_of_ne _ fs second]
      simp only [TypeBody.withEntries_comm node.body es fs other]

theorem entries_of_unsupported (unsupported : c ∉ node.body.form.collections) :
    node.entries c = [] := by
  have own : c ≠ .directives := by
    rintro rfl
    exact unsupported (by cases node.body <;> simp [TypeBody.form, TypeForm.collections])
  rw [entries_of_ne node own, TypeBody.entries_of_unsupported unsupported]

theorem admits_of_mem_entries {e : Entry} (member : e ∈ node.entries c) :
    (Kind.type node.body.form).admits c e = true := by
  by_cases own : c = .directives
  · subst own
    obtain ⟨use, _, rfl⟩ := List.mem_map.mp member
    rfl
  · exact TypeBody.admits_of_mem_entries (entries_of_ne node own ▸ member)

end TypeNode

namespace Definition

variable {d : Definition} {c k : Collection} {es : List Entry} {kind : Kind}

theorem kind?_withEntries (d : Definition) (c : Collection) (es : List Entry) :
    (d.withEntries c es).kind? = d.kind? := by
  cases d with
  | schema s => rfl
  | type description node => simp [withEntries, kind?, TypeNode.form_withEntries]
  | extension node => simp [withEntries, kind?, TypeNode.form_withEntries]
  | directive definition => cases c <;> rfl

theorem name?_withEntries (d : Definition) (c : Collection) (es : List Entry) :
    (d.withEntries c es).name? = d.name? := by
  cases d with
  | schema s => rfl
  | type description node => simp [withEntries, name?, TypeNode.name_withEntries]
  | extension node => simp [withEntries, name?, TypeNode.name_withEntries]
  | directive definition => cases c <;> rfl

theorem entries_withEntries_self (known : d.kind? = some kind)
    (supported : c ∈ kind.collections) (admitted : ∀ e ∈ es, kind.admits c e = true) :
    (d.withEntries c es).entries c = es := by
  cases d with
  | schema s => cases known
  | type description node =>
    cases known
    exact TypeNode.entries_withEntries_self supported admitted
  | extension node =>
    cases known
    refine TypeNode.entries_withEntries_self supported fun e member => ?_
    rw [← Kind.admits_extension]
    exact admitted e member
  | directive definition =>
    cases known
    obtain rfl : c = .arguments := by simpa [Kind.collections] using supported
    refine map_filterMap_eq _ _ fun e member => ?_
    have shape := admitted e member
    cases e <;> first | rfl | cases shape

theorem entries_withEntries_of_ne (d : Definition) (es : List Entry) (other : c ≠ k) :
    (d.withEntries c es).entries k = d.entries k := by
  cases d with
  | schema s => rfl
  | type description node => exact TypeNode.entries_withEntries_of_ne node es other
  | extension node => exact TypeNode.entries_withEntries_of_ne node es other
  | directive definition => cases c <;> cases k <;> first | rfl | exact absurd rfl other

theorem withEntries_entries (d : Definition) (c : Collection) :
    d.withEntries c (d.entries c) = d := by
  cases d with
  | schema s => rfl
  | type description node => simp [withEntries, entries, TypeNode.withEntries_entries]
  | extension node => simp [withEntries, entries, TypeNode.withEntries_entries]
  | directive definition =>
    cases c <;> try rfl
    simp only [withEntries, entries]
    rw [filterMap_map_eq]
    exact fun _ => rfl

theorem withEntries_withEntries (d : Definition) (c : Collection) (es fs : List Entry) :
    (d.withEntries c es).withEntries c fs = d.withEntries c fs := by
  cases d with
  | schema s => rfl
  | type description node => simp [withEntries, TypeNode.withEntries_withEntries]
  | extension node => simp [withEntries, TypeNode.withEntries_withEntries]
  | directive definition => cases c <;> rfl

theorem withEntries_comm (d : Definition) (es fs : List Entry) (other : c ≠ k) :
    (d.withEntries c es).withEntries k fs = (d.withEntries k fs).withEntries c es := by
  cases d with
  | schema s => rfl
  | type description node => simp [withEntries, TypeNode.withEntries_comm node es fs other]
  | extension node => simp [withEntries, TypeNode.withEntries_comm node es fs other]
  | directive definition => cases c <;> cases k <;> first | rfl | exact absurd rfl other

theorem entries_of_unsupported (known : d.kind? = some kind)
    (unsupported : c ∉ kind.collections) : d.entries c = [] := by
  cases d with
  | schema s => rfl
  | type description node =>
    cases known
    exact TypeNode.entries_of_unsupported unsupported
  | extension node =>
    cases known
    exact TypeNode.entries_of_unsupported unsupported
  | directive definition =>
    cases known
    cases c <;> first | rfl | exact absurd (by simp [Kind.collections]) unsupported

theorem admits_of_mem_entries (known : d.kind? = some kind) {e : Entry}
    (member : e ∈ d.entries c) : kind.admits c e = true := by
  cases d with
  | schema s => cases known
  | type description node =>
    cases known
    exact TypeNode.admits_of_mem_entries member
  | extension node =>
    cases known
    rw [Kind.admits_extension]
    exact TypeNode.admits_of_mem_entries member
  | directive definition =>
    cases known
    cases c <;> simp only [entries, List.mem_map, List.not_mem_nil] at member
    obtain ⟨value, _, rfl⟩ := member
    rfl

section Describe

variable (text : String) (d : Definition)

theorem kind?_describe : (d.describe text).kind? = d.kind? := by
  cases d <;> rfl

theorem name?_describe : (d.describe text).name? = d.name? := by
  cases d <;> rfl

theorem entries_describe (c : Collection) : (d.describe text).entries c = d.entries c := by
  cases d with
  | directive definition => cases c <;> rfl
  | _ => rfl

end Describe

def refill (d : Definition) (cs : List Collection) (f : Collection → List Entry) : Definition :=
  cs.foldl (fun d c => d.withEntries c (f c)) d

section Refill

variable {cs : List Collection} {f g : Collection → List Entry}

theorem refill_cons (d : Definition) (c : Collection) (cs : List Collection)
    (f : Collection → List Entry) :
    d.refill (c :: cs) f = (d.withEntries c (f c)).refill cs f :=
  rfl

theorem kind?_refill (d : Definition) (cs : List Collection) (f : Collection → List Entry) :
    (d.refill cs f).kind? = d.kind? := by
  induction cs generalizing d with
  | nil => rfl
  | cons c rest ih => rw [refill_cons, ih, kind?_withEntries]

theorem name?_refill (d : Definition) (cs : List Collection) (f : Collection → List Entry) :
    (d.refill cs f).name? = d.name? := by
  induction cs generalizing d with
  | nil => rfl
  | cons c rest ih => rw [refill_cons, ih, name?_withEntries]

theorem entries_refill_of_not_mem (d : Definition) (f : Collection → List Entry)
    (absent : c ∉ cs) : (d.refill cs f).entries c = d.entries c := by
  induction cs generalizing d with
  | nil => rfl
  | cons k rest ih =>
    rw [refill_cons, ih _ (List.not_mem_of_not_mem_cons absent)]
    exact entries_withEntries_of_ne d _ (Ne.symm (List.ne_of_not_mem_cons absent))

theorem entries_refill (known : d.kind? = some kind) (distinct : cs.Nodup)
    (supported : ∀ c ∈ cs, c ∈ kind.collections)
    (admitted : ∀ c ∈ cs, ∀ e ∈ f c, kind.admits c e = true) (member : c ∈ cs) :
    (d.refill cs f).entries c = f c := by
  induction cs generalizing d with
  | nil => cases member
  | cons k rest ih =>
    obtain ⟨new, restDistinct⟩ := List.nodup_cons.mp distinct
    rw [refill_cons]
    rcases List.mem_cons.mp member with rfl | later
    · rw [entries_refill_of_not_mem _ _ new]
      exact entries_withEntries_self known (supported c member) (admitted c member)
    · refine ih ?_ restDistinct ?_ ?_ later
      · rw [kind?_withEntries, known]
      · exact fun c inside => supported c (List.mem_cons_of_mem _ inside)
      · exact fun c inside => admitted c (List.mem_cons_of_mem _ inside)

theorem refill_withEntries (d : Definition) (es : List Entry) (absent : c ∉ cs) :
    (d.withEntries c es).refill cs f = (d.refill cs f).withEntries c es := by
  induction cs generalizing d with
  | nil => rfl
  | cons k rest ih =>
    have other := List.ne_of_not_mem_cons absent
    rw [refill_cons, refill_cons, withEntries_comm d es (f k) other,
      ih _ (List.not_mem_of_not_mem_cons absent)]

theorem refill_withEntries_of_mem (d : Definition) (es : List Entry) (member : c ∈ cs) :
    (d.withEntries c es).refill cs f = d.refill cs f := by
  induction cs generalizing d with
  | nil => cases member
  | cons k rest ih =>
    rw [refill_cons, refill_cons]
    by_cases here : c = k
    · rw [here, withEntries_withEntries]
    · rw [withEntries_comm d es (f k) here]
      exact ih _ (List.mem_of_ne_of_mem here member)

theorem refill_congr (d : Definition) (same : ∀ c ∈ cs, f c = g c) :
    d.refill cs f = d.refill cs g := by
  induction cs generalizing d with
  | nil => rfl
  | cons c rest ih =>
    rw [refill_cons, refill_cons, same c (by simp)]
    exact ih _ fun k member => same k (List.mem_cons_of_mem _ member)

theorem refill_refill (d : Definition) (distinct : cs.Nodup) :
    (d.refill cs f).refill cs g = d.refill cs g := by
  induction cs generalizing d with
  | nil => rfl
  | cons c rest ih =>
    obtain ⟨new, restDistinct⟩ := List.nodup_cons.mp distinct
    calc (d.refill (c :: rest) f).refill (c :: rest) g
        = (((d.withEntries c (f c)).refill rest f).withEntries c (g c)).refill rest g := rfl
      _ = ((d.withEntries c (g c)).refill rest f).refill rest g := by
        rw [← refill_withEntries _ _ new, withEntries_withEntries]
      _ = d.refill (c :: rest) g := by
        rw [ih _ restDistinct, refill_cons]

theorem refill_entries (same : ∀ c ∈ cs, f c = d.entries c) : d.refill cs f = d := by
  induction cs with
  | nil => rfl
  | cons c rest ih =>
    rw [refill_cons, same c (by simp), withEntries_entries]
    exact ih fun k member => same k (List.mem_cons_of_mem _ member)

end Refill

end Definition

end SchemaOverlay.Sdl

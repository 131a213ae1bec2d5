import SchemaOverlay.Proofs.Overlay.Leftover
import SchemaOverlay.Proofs.Edit.Gathering
import SchemaOverlay.Proofs.Sdl.Yields

/-!
Edits make nothing up: what is loaded from a text, and edited by plans that were read from texts, is
formed as what a reader makes is. So what it exports is printed as the grammar wants it.
-/
namespace SchemaOverlay

open Sdl

namespace Draft

structure Printable (d : Draft) : Prop where
  name : IsName d.name
  unfiled : ∀ n ∈ d.skeleton.unfiled.2.2, IsName n
  entries : d.Holds Entry.Formed

theorem name_absorb (d : Draft) (incoming : List (Collection × Entries)) :
    (d.absorb incoming).name = d.name := by
  induction incoming generalizing d with
  | nil => rfl
  | cons p rest ih => exact ih _

theorem outline_shed (d : Draft) (listed : List (Collection × Entries)) :
    (d.shed listed).name = d.name ∧ (d.shed listed).skeleton = d.skeleton := by
  induction listed generalizing d with
  | nil => exact ⟨rfl, rfl⟩
  | cons p rest ih =>
    have first : ∃ first : Draft, first.name = d.name ∧ first.skeleton = d.skeleton ∧
        d.shed (p :: rest) = first.shed rest := by
      cases found : d.collections.get? p.1 with
      | none => exact ⟨d, rfl, rfl, by simp [shed, found]⟩
      | some es => exact ⟨d.setHeld p.1 (dropListed es p.2), rfl, rfl, by simp [shed, found]⟩
    obtain ⟨first, name, skeleton, same⟩ := first
    rw [same, ← name, ← skeleton]
    exact ih first

namespace Printable

variable {d d' other : Draft}

theorem opened {kind : Kind} {name : Name} {node : Definition} (known : node.kind? = some kind)
    (named : node.name? = some name) (formed : node.Formed) :
    (Draft.opened kind name node).Printable := by
  obtain ⟨names, entries, unfiled⟩ := (Definition.formed_iff known).mp formed
  have skeleton := (skeleton_of_opened (ofDefinition_eq known named)).2
  exact ⟨names name named, skeleton ▸ unfiled, .opened entries⟩

theorem store (printable : d.Printable) (c : Collection) (n : Name) {written : Option Entry}
    (new : ∀ e, written = some e → e.Formed) : (d.store c n written).Printable := by
  have entries := printable.entries.store c n new
  cases written <;> exact ⟨printable.name, printable.unfiled, entries⟩

theorem extendWith (printable : d.Printable) (more : other.Printable)
    (done : d.extendWith other = .ok d') : d'.Printable := by
  have entries := printable.entries.extendWith more.entries done
  have unfiled : d'.skeleton.unfiled = d.skeleton.unfiled := by
    rw [skeleton_extendWith done, unfiled_takeDescription]
  obtain ⟨_, rfl⟩ := extendWith_eq_ok_iff.mp done
  have name := name_absorb d other.collections.pairs
  exact ⟨name ▸ printable.name, unfiled ▸ printable.unfiled, entries⟩

theorem excludeWith (printable : d.Printable) (done : d.excludeWith other = .ok d') :
    d'.Printable := by
  have entries := printable.entries.excludeWith done
  obtain ⟨_, rfl⟩ := excludeWith_eq_ok_iff.mp done
  obtain ⟨name, skeleton⟩ := outline_shed d other.collections.pairs
  exact ⟨name ▸ printable.name, skeleton ▸ printable.unfiled, entries⟩

theorem becomes {held : Option Draft} (before : ∀ first, held = some first → first.Printable)
    (incoming : other.Printable) (became : other.Becomes held d) : d.Printable := by
  cases became with
  | whole held => exact incoming
  | extended done => exact (before _ rfl).extendWith incoming done
  | excluded done => exact (before _ rfl).excludeWith done

theorem toDefinition (printable : d.Printable) (formed : d.WellFormed) : d.toDefinition.Formed := by
  rw [Definition.formed_iff (kind?_toDefinition formed), name?_toDefinition formed]
  refine ⟨fun n same => Option.some.inj same ▸ printable.name,
    printable.entries.toDefinition formed, ?_⟩
  rw [toDefinition_eq formed, Definition.unfiled_refill]
  exact printable.unfiled

end Printable

end Draft

namespace Catalog

def Printable (cat : Catalog) : Prop := ∀ r, (cat.registry r).All Draft.Printable

namespace Printable

variable {cat cat' : Catalog} {r : Registry} {n : Name}

theorem empty : Catalog.empty.Printable := by
  intro r
  cases r <;> exact Keyed.All.empty

theorem get? (printable : cat.Printable) {d : Draft} (found : cat.get? r n = some d) :
    d.Printable :=
  (printable r).get? found

theorem store (printable : cat.Printable) (r : Registry) (n : Name) {held : Option Draft}
    (new : ∀ d, held = some d → d.Printable) : (cat.store r n held).Printable := by
  intro s m d member
  rcases mem_pairs_store member with ⟨_, _, now⟩ | before
  · exact new d now
  · exact printable s m d before

theorem ofDocument {doc : Document} (formed : doc.Formed) (loaded : ofDocument doc = .ok cat) :
    cat.Printable := by
  refine addAll_induction (P := Catalog.Printable) .empty ?_ loaded
  rintro d listed r mid next printable ⟨incoming, draft, made, became, rfl⟩
  refine printable.store r _ fun held same => ?_
  cases same
  obtain ⟨kind, name, known, named, rfl⟩ :=
    Draft.ofDefinition_eq_ok_iff.mp (draftFor_eq_ok_iff.mp made).1
  exact .becomes (fun first found => printable.get? found)
    (.opened known named (formed d listed)) became

theorem toDocument (printable : cat.Printable) (filed : cat.Filed) : cat.toDocument.Formed := by
  unfold Document.Formed
  rw [definitions_toDocument]
  intro d member
  obtain ⟨draft, listed, rfl⟩ := List.mem_map.mp member
  obtain ⟨r, _, inside⟩ := List.mem_flatMap.mp listed
  exact ((printable r).of_mem_values inside).toDefinition (filed.mem_values inside).formed

end Printable

end Catalog

def Step.Formed : Step → Prop
  | .type e => e.definition.Formed
  | .member e => e.entry.Formed

theorem Step.onPlace_printable {s : Step} (wf : s.WellFormed) (formed : s.Formed)
    {held : Option Draft}
    {d : Draft} (before : ∀ first, held = some first → first.Printable)
    (made : s.onPlace held = .ok (some d)) : d.Printable := by
  cases s with
  | type e =>
    have became : e.incoming.Becomes held d := by
      refine TypeEdit.onPlace_becomes ?_
      cases result : e.onPlace held <;> simp_all [Step.onPlace, Except.mapError]
    exact .becomes before (.opened wf.kind wf.name formed) became
  | member e =>
    cases held with
    | none => cases made
    | some first =>
      obtain ⟨edited, done, same⟩ := Catalog.exists_of_map_eq_ok made
      cases same
      rw [MemberEdit.onDraft_ok done]
      refine (before first rfl).store e.collection e.entry.name fun entry written => ?_
      have same : entry = e.entry := by
        cases act : e.action <;> simp only [MemberEdit.written, act] at written <;>
          cases written <;> rfl
      exact same ▸ formed

theorem Catalog.Printable.performAll {steps : List Step} (wf : ∀ s ∈ steps, s.WellFormed)
    (formed : ∀ s ∈ steps, s.Formed) {cat cat' : Catalog} (printable : cat.Printable)
    (ran : SchemaOverlay.performAll steps cat = .ok cat') : cat'.Printable := by
  refine performAll_induction wf (P := Catalog.Printable) printable ?_ ran
  intro s member mid held before made
  refine before.store s.registry s.name fun d same => ?_
  subst same
  exact Step.onPlace_printable (wf s member) (formed s member)
    (fun first found => before.get? found) made

namespace Sdl

theorem Definition.formed_withDirectives {d : Definition} (formed : d.Formed)
    (type : d.isType = true)
    {uses : List Directive} (fewer : ∀ use ∈ uses, use ∈ d.directives) :
    (d.withDirectives uses).Formed := by
  have node : ∀ node : TypeNode, node.Formed → (∀ use ∈ uses, use ∈ node.directives) →
      ({ node with directives := uses } : TypeNode).Formed := by
    rintro ⟨n, ds, body⟩ formed fewer
    exact Parser.node_formed formed.name
      (fun use member => formed.directives use (fewer use member))
      formed.allEntries formed.implements
  cases d with
  | schema s => cases type
  | type text n => exact node n formed fewer
  | extension n => exact node n formed fewer
  | directive definition => cases type

theorem Entry.formed_withDirectives {e : Entry} (formed : e.Formed) {uses : List Directive}
    (fewer : ∀ use ∈ uses, use ∈ e.directives) : (e.withDirectives uses).Formed := by
  cases e with
  | directive use => exact formed
  | namedType n => exact formed
  | field f =>
    exact ⟨formed.name, formed.arguments, formed.type,
      fun d member => formed.directives d (fewer d member)⟩
  | inputValue v =>
    exact ⟨formed.name, formed.type, formed.default,
      fun d member => formed.directives d (fewer d member)⟩
  | enumValue v => exact ⟨formed.name, fun d member => formed.directives d (fewer d member)⟩

theorem Site.mem_entries {d : Definition} {s : Site} (site : s ∈ d.sites) (type : d.isType = true)
    {c : Collection} {e : Entry} (entry : s.entry? = some (c, e)) : e ∈ d.entries c := by
  have fields : ∀ fs : List Field,
      s ∈ (fs.flatMap fun f => f.arguments.map (.argument d f) ++ [.field d f]) →
      c = .fields ∧ e ∈ fs.map .field := by
    intro fs member
    obtain ⟨f, listed, here⟩ := List.mem_flatMap.mp member
    rcases List.mem_append.mp here with argument | own
    · obtain ⟨v, _, rfl⟩ := List.mem_map.mp argument
      cases entry
    · obtain rfl := List.mem_singleton.mp own
      cases entry
      exact ⟨rfl, List.mem_map_of_mem listed⟩
  have below : ∀ node : TypeNode, s ∈ .definition d :: node.body.sites d → e ∈ node.entries c := by
    rintro ⟨n, ds, body⟩ member
    rcases List.mem_cons.mp member with rfl | member
    · cases entry
    · cases body with
      | scalar => cases member
      | object interfaces fs | interface interfaces fs =>
        obtain ⟨rfl, inside⟩ := fields fs member
        exact inside
      | union members => cases member
      | enum values =>
        obtain ⟨v, listed, rfl⟩ := List.mem_map.mp member
        cases entry
        exact List.mem_map_of_mem listed
      | inputObject fs =>
        obtain ⟨v, listed, rfl⟩ := List.mem_map.mp member
        cases entry
        exact List.mem_map_of_mem listed
  cases d with
  | schema s => cases type
  | type text n => exact below n site
  | extension n => exact below n site
  | directive definition => cases type

end Sdl

theorem Plan.formed_of_ofDocument {overrides : Document} {p : Plan} (formed : overrides.Formed)
    (planned : ofDocument overrides = .ok p) : ∀ s ∈ p.schedule, s.Formed := by
  intro s step
  obtain ⟨i, listed, asks⟩ := (asked_of_ok planned).2 s step
  obtain ⟨inside, site⟩ := Document.owner_of_instruction listed
  have kept : ∀ {before after : List Directive} {use : Directive} {uses : List Directive},
      uses = before ++ use :: after → ∀ u ∈ before ++ after, u ∈ uses := by
    rintro before after use _ rfl u member
    rcases List.mem_append.mp member with here | here <;> simp [here]
  cases asks with
  | type place type known named carried index =>
    rw [place] at inside
    exact Definition.formed_withDirectives (formed _ inside) type (kept carried)
  | member entry member known named action carried index =>
    have type := (Site.isMember_iff.mp member).choose_spec.choose_spec.2
    have holds := ((Definition.formed_iff known).mp (formed _ inside)).2.1
    exact Entry.formed_withDirectives (holds _ _ (Site.mem_entries site type entry)) (kept carried)

namespace Catalog

/-- The catalogs that texts are loaded as, and those that the plans of texts, complete or stopped,
make of them. -/
inductive Edited : Catalog → Prop
  | loaded {text : String} {doc : Document} {cat : Catalog} (read : Document.parse text = .ok doc)
      (loaded : ofDocument doc = .ok cat) : Edited cat
  | applied {text : String} {overrides : Document} {p : Plan} {cat : Catalog}
      (read : Document.parse text = .ok overrides) (planned : Plan.ofDocument overrides = .ok p)
      (edited : Edited cat) : Edited (p.applyTo cat).2.catalog

theorem Edited.filed {cat : Catalog} (edited : cat.Edited) : cat.Filed := by
  induction edited with
  | loaded _ loaded => exact Filed.ofDocument loaded
  | applied _ planned _ ih => exact ih.applyTo (Plan.ofDocument_wellFormed planned)

theorem Edited.printable {cat : Catalog} (edited : cat.Edited) : cat.Printable := by
  induction edited with
  | loaded read loaded => exact .ofDocument (Document.formed_of_parse read) loaded
  | @applied _ overrides p cat read planned _ ih =>
    have wf := Plan.ofDocument_wellFormed planned
    have formed := Plan.formed_of_ofDocument (Document.formed_of_parse read) planned
    obtain ⟨done, rest, split, ran⟩ := Plan.applyTo_catalog wf cat
    have part : ∀ s ∈ done, s ∈ p.schedule := by
      intro s member
      rw [split]
      exact List.mem_append_left rest member
    exact ih.performAll (fun s member => wf.step s (part s member))
      (fun s member => formed s (part s member)) ran

/-- What texts lead to is printed as the grammar wants it. -/
theorem Edited.formed {cat : Catalog} (edited : cat.Edited) : cat.toDocument.Formed :=
  edited.printable.toDocument edited.filed

end Catalog

end SchemaOverlay

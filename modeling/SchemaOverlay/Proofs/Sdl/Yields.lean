import SchemaOverlay.Proofs.Sdl.Formed

/-!
What is read is formed: each rule of the grammar, given tokens that a text may have, yields what is
formed and leaves such tokens.
-/
namespace SchemaOverlay.Sdl

section Scanned

theorem formed_of_intToken? {n : Int} {t : Token} (read : intToken? n = some t) : t.Formed := by
  obtain rfl := eq_of_intToken? read
  exact intToken?_isSome.mp (Option.isSome_of_mem read)

theorem formed_of_numeral? {cs : List Char} {t : Token} (read : numeral? cs = some t) :
    t.Formed := by
  have unsigned : ∀ negative cs, unsignedNumeral? negative cs = some t → t.Formed := by
    intro negative cs read
    unfold unsignedNumeral? at read
    dsimp only at read
    split at read
    · split at read
      · exact formed_of_intToken? read
      · simp only [Option.bind_eq_bind, Option.bind_eq_some_iff, Option.pure_def,
          Option.some.injEq] at read
        obtain ⟨_, _, _, _, rfl⟩ := read
        exact Binary64.canonical_ofDecimal _ _
    · cases read
  unfold numeral? at read
  split at read
  · exact unsigned _ _ read
  · exact unsigned _ _ read

theorem formed_of_readToken {c : Char} {cs rest : List Char} {t : Token}
    (read : readToken c cs = .ok (t, rest)) : t.Formed := by
  unfold readToken at read
  split at read
  · cases read
    exact trivial
  · split at read
    · rename_i start
      cases read
      have inside : ∀ d ∈ cs.takeWhile isNameChar, isNameChar d = true := fun d member =>
        List.mem_takeWhile_imp member
      simp only [Token.Formed, IsName, String.toList_ofList, isNameText, Bool.and_eq_true,
        List.all_eq_true]
      exact ⟨start, inside⟩
    · split at read
      · dsimp only at read
        split at read
        · rename_i known
          cases read
          exact formed_of_numeral? known
        · cases read
      · split at read
        · split at read
          · cases read
            exact trivial
          · cases read
        · cases read

theorem formed_of_scan {cs : List Char} {ts : List Token} (read : scan cs = .ok ts) :
    ∀ t ∈ ts, t.Formed := by
  induction cs using scan.induct generalizing ts with
  | case1 cs none =>
    rw [scan_eq, none] at read
    cases read
    exact fun _ member => nomatch member
  | case2 cs c rest shape e failed =>
    rw [scan_eq, shape] at read
    dsimp only at read
    rw [failed] at read
    cases read
  | case3 cs c rest shape t rest' token ih =>
    rw [scan_eq, shape] at read
    dsimp only at read
    rw [token] at read
    dsimp only at read
    cases later : scan rest' with
    | error e =>
      rw [later] at read
      cases read
    | ok ts =>
      rw [later] at read
      cases read
      exact List.forall_mem_cons.mpr ⟨formed_of_readToken token, ih later⟩

end Scanned

namespace Parser

variable {α β : Type} {p : Parser α} {Q : α → Prop} {R : β → Prop}

/-- From formed tokens the rule reads only what is as `Q` says, and leaves formed tokens. -/
def Yields (p : Parser α) (Q : α → Prop) : Prop :=
  ∀ ts a rest, (∀ t ∈ ts, t.Formed) → p.run ts = .ok (a, rest) → Q a ∧ ∀ t ∈ rest, t.Formed

namespace Yields

theorem pure {a : α} (holds : Q a) : Yields (Pure.pure a) Q := by
  intro ts b rest formed read
  cases read
  exact ⟨holds, formed⟩

theorem throw (e : SyntaxError) : Yields (MonadExcept.throw e : Parser α) Q := by
  intro ts a rest formed read
  cases read

theorem bind {f : α → Parser β} (first : p.Yields Q) (next : ∀ a, Q a → (f a).Yields R) :
    (p >>= f).Yields R := by
  intro ts b rest formed read
  rw [StateT.run_bind] at read
  cases step : p.run ts with
  | error e =>
    rw [step] at read
    cases read
  | ok result =>
    obtain ⟨a, mid⟩ := result
    rw [step] at read
    obtain ⟨holds, left⟩ := first ts a mid formed step
    exact next a holds mid b rest left read

theorem mono {Q' : α → Prop} (yields : p.Yields Q) (weaker : ∀ a, Q a → Q' a) : p.Yields Q' :=
  fun ts a rest formed read => (yields ts a rest formed read).imp_left (weaker a)

end Yields

theorem get_yields :
    Yields (MonadState.get : Parser (List Token)) fun ts => ∀ t ∈ ts, t.Formed := by
  intro ts a rest formed read
  cases read
  exact ⟨formed, formed⟩

theorem peek_yields : peek.Yields fun t? => ∀ t ∈ t?, t.Formed :=
  get_yields.bind fun _ formed => .pure fun t head => formed t (List.mem_of_mem_head? head)

theorem next_yields : next.Yields Token.Formed := by
  intro ts a rest formed read
  cases ts with
  | nil => cases read
  | cons t ts =>
    cases read
    exact List.forall_mem_cons.mp formed

theorem refuse_yields : (refuse : Parser α).Yields Q :=
  next_yields.bind fun _ _ => .throw _

theorem isNext_yields (t : Token) : (isNext t).Yields fun _ => True :=
  peek_yields.bind fun _ _ => .pure trivial

theorem discard_yields (yields : p.Yields Q) : (discard p).Yields fun _ => True := by
  change (p >>= fun _ => Pure.pure PUnit.unit).Yields _
  exact yields.bind fun _ _ => .pure trivial

theorem expect_yields (t : Token) : (expect t).Yields fun _ => True := by
  refine (isNext_yields t).bind fun found _ => ?_
  cases found with
  | true => exact discard_yields next_yields
  | false => exact (refuse_yields (Q := fun _ => True)).bind fun _ _ => discard_yields next_yields

theorem accept_yields (t : Token) : (accept t).Yields fun _ => True := by
  refine (isNext_yields t).bind fun found _ => ?_
  cases found with
  | true => exact (discard_yields next_yields).bind fun _ _ => .pure trivial
  | false => exact .pure trivial

theorem name_yields : name.Yields IsName := by
  refine peek_yields.bind fun t? formed => ?_
  split
  · exact (discard_yields next_yields).bind fun _ _ => .pure (formed _ rfl)
  · exact refuse_yields

theorem description_yields : description.Yields fun _ => True := by
  refine peek_yields.bind fun t? formed => ?_
  split
  · exact (discard_yields next_yields).bind fun _ _ => .pure trivial
  · exact .pure trivial

section Repeated

variable {item : Parser α} (each : item.Yields Q)

include each

theorem repeatUpTo_yields (starts : Token → Bool) (n : Nat) :
    (repeatUpTo starts item n).Yields fun as => ∀ a ∈ as, Q a := by
  induction n with
  | zero => exact .pure fun _ member => nomatch member
  | succ n ih =>
    refine peek_yields.bind fun t? _ => ?_
    cases t?.any starts with
    | true =>
      exact each.bind fun a holds => ih.bind fun _ more =>
        .pure (List.forall_mem_cons.mpr ⟨holds, more⟩)
    | false => exact .pure fun _ member => nomatch member

theorem whileNext_yields (starts : Token → Bool) :
    (whileNext starts item).Yields fun as => ∀ a ∈ as, Q a :=
  get_yields.bind fun ts _ => repeatUpTo_yields each starts ts.length

theorem upTo_yields (close : Token) : (upTo close item).Yields fun as => ∀ a ∈ as, Q a :=
  (whileNext_yields each _).bind fun _ holds => (expect_yields close).bind fun _ _ => .pure holds

theorem someUpTo_yields (close : Token) : (someUpTo close item).Yields fun as => ∀ a ∈ as, Q a :=
  each.bind fun _ first => (upTo_yields each close).bind fun _ more =>
    .pure (List.forall_mem_cons.mpr ⟨first, more⟩)

theorem separated_yields (mark : Token) : (separated mark item).Yields fun as => ∀ a ∈ as, Q a := by
  refine (discard_yields (accept_yields mark)).bind fun _ _ => each.bind fun _ first => ?_
  have next : (do expect mark; item : Parser α).Yields Q :=
    (expect_yields mark).bind fun _ _ => each
  exact (whileNext_yields next _).bind fun _ more => .pure (List.forall_mem_cons.mpr ⟨first, more⟩)

end Repeated

section Bracketed

variable {room : Nat} {item : Nat → Parser α}
  (each : ∀ inner, room = inner + 1 → (item inner).Yields Q)

include each

theorem opening_yields (t : Token) : (opening t room item).Yields Q := by
  refine (expect_yields t).bind fun _ _ => ?_
  cases room with
  | zero => exact .throw _
  | succ inner => exact each inner rfl

theorem enclosed_yields (t close : Token) :
    (do if ← isNext t then opening t room fun room => someUpTo close (item room) else return []
      : Parser (List α)).Yields fun as => ∀ a ∈ as, Q a := by
  refine (isNext_yields _).bind fun found _ => ?_
  cases found with
  | true => exact opening_yields (fun inner opened => someUpTo_yields (each inner opened) _) _
  | false => exact .pure fun _ member => nomatch member

theorem inParens_yields : (inParens room item).Yields fun as => ∀ a ∈ as, Q a :=
  enclosed_yields each _ _

theorem inBraces_yields : (inBraces room item).Yields fun as => ∀ a ∈ as, Q a :=
  enclosed_yields each _ _

end Bracketed

section Sorting

theorem mem_insertSorted {n : Name} {v : Value} {fields : List (Name × Value)} {f : Name × Value}
    (member : f ∈ insertSorted n v fields) : f = (n, v) ∨ f ∈ fields := by
  induction fields with
  | nil => simpa [insertSorted] using member
  | cons g rest ih =>
    obtain ⟨m, w⟩ := g
    unfold insertSorted at member
    split at member
    · simpa using member
    · split at member
      · exact (List.mem_cons.mp member).imp_right (List.mem_cons_of_mem _)
      · rcases List.mem_cons.mp member with rfl | member
        · simp
        · exact (ih member).imp_right (List.mem_cons_of_mem _)

theorem sorted_insertSorted (n : Name) (v : Value) {fields : List (Name × Value)}
    (sorted : SortedFields fields) : SortedFields (insertSorted n v fields) := by
  induction fields with
  | nil => exact List.pairwise_singleton _ _
  | cons g rest ih =>
    obtain ⟨m, w⟩ := g
    obtain ⟨least, later⟩ := List.pairwise_cons.mp sorted
    unfold insertSorted
    split
    · rename_i before
      refine List.pairwise_cons.mpr ⟨?_, sorted⟩
      rw [List.forall_mem_cons]
      exact ⟨before, fun f member => lt_trans before (least f member)⟩
    · split
      · rename_i same
        exact List.pairwise_cons.mpr ⟨fun f member => same ▸ least f member, later⟩
      · rename_i notBefore other
        refine List.pairwise_cons.mpr ⟨fun f member => ?_, ih later⟩
        rcases mem_insertSorted member with rfl | member
        · exact lt_of_le_of_ne (not_lt.mp notBefore) (Ne.symm other)
        · exact least f member

theorem insertSorted_of_greatest {n : Name} {v : Value} {fields : List (Name × Value)}
    (greatest : ∀ f ∈ fields, f.1 < n) : insertSorted n v fields = fields ++ [(n, v)] := by
  induction fields with
  | nil => rfl
  | cons g rest ih =>
    obtain ⟨m, w⟩ := g
    rw [List.forall_mem_cons] at greatest
    rw [insertSorted, if_neg (lt_asymm greatest.1), if_neg (ne_of_gt greatest.1), ih greatest.2,
      List.cons_append]

theorem sortFields_of_sorted {fields : List (Name × Value)} (sorted : SortedFields fields) :
    sortFields fields = fields := by
  induction fields using List.reverseRecOn with
  | nil => rfl
  | append_singleton before f ih =>
    obtain ⟨earlier, _, least⟩ := List.pairwise_append.mp sorted
    have last : sortFields (before ++ [f]) = insertSorted f.1 f.2 (sortFields before) := by
      rw [sortFields, List.foldl_append]
      rfl
    rw [last, ih earlier]
    exact insertSorted_of_greatest fun g member => least g member f (by simp)

theorem sortFields_spec {P : Name × Value → Prop} {fields : List (Name × Value)}
    (each : ∀ f ∈ fields, P f) :
    SortedFields (sortFields fields) ∧ ∀ f ∈ sortFields fields, P f := by
  suffices fold : ∀ sorted : List (Name × Value), SortedFields sorted → (∀ f ∈ sorted, P f) →
      SortedFields (fields.foldl (fun sorted f => insertSorted f.1 f.2 sorted) sorted) ∧
        ∀ f ∈ fields.foldl (fun sorted f => insertSorted f.1 f.2 sorted) sorted, P f from
    fold [] List.Pairwise.nil fun _ member => absurd member List.not_mem_nil
  induction fields with
  | nil => exact fun _ sorted kept => ⟨sorted, kept⟩
  | cons g rest ih =>
    rw [List.forall_mem_cons] at each
    intro sorted order kept
    refine ih each.2 _ (sorted_insertSorted g.1 g.2 order) fun f member => ?_
    rcases mem_insertSorted member with rfl | member
    · exact each.1
    · exact kept f member

end Sorting

theorem wordValue_formed {n : Name} (name : IsName n) (vars : Bool) (room : Nat) :
    (wordValue n).Formed vars room := by
  unfold wordValue
  split
  · exact .boolean true
  · exact .boolean false
  · exact .null
  · rename_i notTrue notFalse notNull
    exact .enum name ⟨notTrue, notFalse, notNull⟩

theorem pair_yields {item : Parser α} (yields : item.Yields Q) :
    (do
      let n ← name
      expect (.mark .colon)
      return (n, ← item) : Parser (Name × α)).Yields fun f => IsName f.1 ∧ Q f.2 :=
  name_yields.bind fun _ name => (expect_yields _).bind fun _ _ =>
    yields.bind fun _ holds => .pure ⟨name, holds⟩

theorem value_yields (vars : Bool) (room : Nat) :
    (value vars room).Yields (Value.Formed vars room) := by
  have simple : ∀ {room : Nat} {inside : Option (Parser Value)},
      (∀ p ∈ inside, ∃ inner, room = inner + 1 ∧ p.Yields (Value.Formed vars inner)) →
      (do valueFrom vars inside (← next) : Parser Value).Yields (Value.Formed vars room) := by
    intro room inside each
    refine next_yields.bind fun t formed => ?_
    unfold valueFrom
    split
    · exact .pure (wordValue_formed formed _ _)
    · exact .pure (.int formed)
    · exact .pure (.float formed)
    · exact .pure (.string _)
    · split
      · rename_i allowed
        exact name_yields.bind fun n name => .pure (.var allowed name)
      · exact refuse_yields
    · split
      · exact .throw _
      · obtain ⟨inner, rfl, yields⟩ := each _ rfl
        exact (upTo_yields yields _).bind fun items holds => .pure (.list holds)
    · split
      · exact .throw _
      · obtain ⟨inner, rfl, yields⟩ := each _ rfl
        refine (upTo_yields (pair_yields yields) _).bind fun fields holds => ?_
        obtain ⟨sorted, each⟩ := sortFields_spec holds
        exact .pure
          (.object sorted (fun f member => (each f member).1) fun f member => (each f member).2)
    · exact .throw _
  induction room with
  | zero => exact simple fun _ none => nomatch none
  | succ inner ih => exact simple fun p same => ⟨inner, rfl, Option.some.inj same ▸ ih⟩

theorem typeRef_yields (room : Nat) : (typeRef room).Yields (TypeRef.Formed room) := by
  have marked : ∀ {room : Nat} {inner : TypeRef}, inner.Formed room → (∀ t, inner ≠ .nonNull t) →
      (do
        if ← accept (.mark .bang) then return .nonNull inner
        return inner : Parser TypeRef).Yields (TypeRef.Formed room) := by
    intro room inner inside once
    refine (accept_yields _).bind fun found _ => ?_
    cases found with
    | true => exact .pure (.nonNull inside once)
    | false => exact .pure inside
  induction room with
  | zero =>
    unfold typeRef
    refine next_yields.bind fun t formed => ?_
    dsimp only
    split
    · exact marked (.named formed) fun _ same => nomatch same
    · exact (Yields.throw (Q := fun _ => False) _).bind fun _ none => none.elim
    · exact (Yields.throw (Q := fun _ => False) _).bind fun _ none => none.elim
  | succ inner ih =>
    unfold typeRef
    refine next_yields.bind fun t formed => ?_
    dsimp only
    split
    · exact marked (.named formed) fun _ same => nomatch same
    · exact ih.bind fun item inside => (expect_yields _).bind fun _ _ =>
        marked (.list inside) fun _ same => nomatch same
    · exact (Yields.throw (Q := fun _ => False) _).bind fun _ none => none.elim

theorem directive_yields (room : Nat) : (directive room).Yields (Directive.Formed room) := by
  refine (expect_yields _).bind fun _ _ => name_yields.bind fun n name => ?_
  refine (inParens_yields fun inner opened => ?_).bind fun arguments each => .pure ⟨name, each⟩
  subst opened
  exact (pair_yields (value_yields true inner)).mono fun _ formed => ⟨inner.succ_pos, formed⟩

theorem directives_yields (room : Nat) :
    (directives room).Yields fun ds => ∀ d ∈ ds, d.Formed room :=
  whileNext_yields (directive_yields room) _

theorem inputValue_yields (room : Nat) : (inputValue room).Yields (InputValue.Formed room) := by
  refine description_yields.bind fun description _ => name_yields.bind fun n name =>
    (expect_yields _).bind fun _ _ => (typeRef_yields room).bind fun type inside =>
    (accept_yields _).bind fun found _ => ?_
  dsimp only
  have rest : ∀ default : Option Value, (∀ d ∈ default, d.Formed false room) →
      (do
        let directives ← directives room
        return ⟨description, n, type, default, directives⟩ : Parser InputValue).Yields
          (InputValue.Formed room) := by
    intro default value
    exact (directives_yields room).bind fun ds directives => .pure ⟨name, inside, value, directives⟩
  cases found with
  | true =>
    exact (value_yields false room).bind fun v value =>
      rest (some v) fun d same => Option.some.inj same ▸ value
  | false => exact rest none fun d same => nomatch same

theorem field_yields (room : Nat) : (field room).Yields (Field.Formed room) := by
  refine description_yields.bind fun description _ => name_yields.bind fun n name => ?_
  refine (inParens_yields (Q := fun v => 0 < room ∧ v.Formed (room - 1))
    fun inner opened => ?_).bind fun arguments each => ?_
  · subst opened
    exact (inputValue_yields inner).mono fun v formed => ⟨inner.succ_pos, formed⟩
  · exact (expect_yields _).bind fun _ _ => (typeRef_yields room).bind fun type inside =>
      (directives_yields room).bind fun ds directives => .pure ⟨name, each, inside, directives⟩

theorem enumValue_yields (room : Nat) : (enumValue room).Yields (EnumValue.Formed room) :=
  description_yields.bind fun _ _ => name_yields.bind fun _ name =>
    (directives_yields room).bind fun _ directives => .pure ⟨name, directives⟩

theorem implements_yields : implements.Yields fun ns => ∀ n ∈ ns, IsName n := by
  refine (accept_yields _).bind fun found _ => ?_
  cases found with
  | true => exact separated_yields name_yields _
  | false => exact .pure fun _ member => nomatch member

theorem node_formed {name : Name} {ds : List Directive} {body : TypeBody} (named : IsName name)
    (directives : ∀ d ∈ ds, d.Formed 50) (all : body.AllEntries Entry.Formed)
    (implements : ∀ n ∈ body.implements, IsName n) :
    (TypeNode.mk name ds body).Formed := by
  refine ⟨named, fun c e member => ?_, implements⟩
  by_cases own : c = .directives
  · subst own
    obtain ⟨d, listed, rfl⟩ := List.mem_map.mp member
    exact directives d listed
  · rw [TypeNode.entries_of_ne _ own] at member
    exact TypeBody.forall_entries_iff.mpr all c e member

theorem block_yields {item : Nat → Parser α} {Q : Nat → α → Prop}
    (each : ∀ room, (item room).Yields (Q room)) :
    (inBraces maxOpen item).Yields fun as => ∀ a ∈ as, Q 49 a :=
  inBraces_yields fun inner opened => by
    cases opened
    exact each 49

theorem scalarNode_yields : scalarNode.Yields TypeNode.Formed :=
  name_yields.bind fun _ name => (directives_yields 50).bind fun _ directives =>
    .pure (node_formed name directives trivial (List.forall_mem_nil _))

theorem objectNode_yields : objectNode.Yields TypeNode.Formed :=
  name_yields.bind fun _ name => implements_yields.bind fun _ interfaces =>
    (directives_yields 50).bind fun _ directives => (block_yields field_yields).bind fun _ fields =>
      .pure (node_formed name directives ⟨interfaces, fields⟩ (List.forall_mem_nil _))

theorem interfaceNode_yields : interfaceNode.Yields TypeNode.Formed :=
  name_yields.bind fun _ name => implements_yields.bind fun _ interfaces =>
    (directives_yields 50).bind fun _ directives => (block_yields field_yields).bind fun _ fields =>
      .pure (node_formed name directives fields interfaces)

theorem unionNode_yields : unionNode.Yields TypeNode.Formed := by
  refine name_yields.bind fun n name => (directives_yields 50).bind fun ds directives => ?_
  have done : ∀ members : List Name, (∀ m ∈ members, IsName m) →
      (TypeNode.mk n ds (.union members)).Formed := by
    intro members each
    exact node_formed name directives each (List.forall_mem_nil _)
  refine (accept_yields _).bind fun found _ => ?_
  dsimp only
  cases found with
  | true =>
    exact (separated_yields name_yields _).bind fun members each => .pure (done members each)
  | false => exact .pure (done [] (List.forall_mem_nil _))

theorem enumNode_yields : enumNode.Yields TypeNode.Formed :=
  name_yields.bind fun _ name => (directives_yields 50).bind fun _ directives =>
    (block_yields enumValue_yields).bind fun _ values =>
      .pure (node_formed name directives values (List.forall_mem_nil _))

theorem inputNode_yields : inputNode.Yields TypeNode.Formed :=
  name_yields.bind fun _ name => (directives_yields 50).bind fun _ directives =>
    (block_yields inputValue_yields).bind fun _ fields =>
      .pure (node_formed name directives fields (List.forall_mem_nil _))

theorem typeNode?_yields {keyword : Name} {node : Parser TypeNode}
    (known : typeNode? keyword = some node) : node.Yields TypeNode.Formed := by
  unfold typeNode? at known
  split at known <;> cases known
  · exact scalarNode_yields
  · exact objectNode_yields
  · exact interfaceNode_yields
  · exact unionNode_yields
  · exact enumNode_yields
  · exact inputNode_yields

theorem extension_yields : extension.Yields Definition.Formed := by
  refine name_yields.bind fun keyword _ => ?_
  split
  · exact .throw _
  · rename_i known
    refine (typeNode?_yields known).bind fun node formed => ?_
    split
    · exact .pure formed
    · refine peek_yields.bind fun t? _ => ?_
      cases t? <;> exact .throw _

theorem arguments_yields : (inParens maxOpen inputValue).Yields fun vs => ∀ v ∈ vs, v.Formed 49 :=
  inParens_yields fun inner opened => by
    cases opened
    exact inputValue_yields 49

theorem locations_yields : locations.Yields fun _ => True := by
  have one : location.Yields fun _ => True := by
    refine name_yields.bind fun word _ => ?_
    split
    · exact .pure trivial
    · exact .throw _
  refine peek_yields.bind fun t? _ => ?_
  split
  · exact (separated_yields one _).mono fun _ _ => trivial
  · exact (separated_yields one _).mono fun _ _ => trivial
  · exact .pure trivial

theorem directiveDefinition_yields (description : Option String) :
    (directiveDefinition description).Yields Definition.Formed :=
  (expect_yields _).bind fun _ _ => name_yields.bind fun _ name =>
    arguments_yields.bind fun _ arguments => (accept_yields _).bind fun _ _ =>
    (expect_yields _).bind fun _ _ => locations_yields.bind fun _ _ =>
    .pure (DirectiveDefinition.Formed.mk name arguments)

theorem addRoot?_formed {s s' : SchemaDefinition} (formed : s.Formed) {operation type : Name}
    (name : IsName type) (added : addRoot? s operation type = some s') : s'.Formed := by
  unfold addRoot? at added
  split at added
  · split at added <;> cases added
    exact ⟨formed.directives, by simpa using name, formed.mutation, formed.subscription⟩
  · split at added <;> cases added
    exact ⟨formed.directives, formed.query, by simpa using name, formed.subscription⟩
  · split at added <;> cases added
    exact ⟨formed.directives, formed.query, formed.mutation, by simpa using name⟩
  · cases added

theorem addRoots_formed {roots : List (Name × Name)} (each : ∀ root ∈ roots, IsName root.2)
    {s s' : SchemaDefinition} (formed : s.Formed)
    (added : roots.foldlM (fun s (operation, type) => addRoot? s operation type) s = some s') :
    s'.Formed := by
  induction roots generalizing s with
  | nil =>
    cases added
    exact formed
  | cons root rest ih =>
    rw [List.forall_mem_cons] at each
    rw [List.foldlM_cons, Option.bind_eq_bind, Option.bind_eq_some_iff] at added
    obtain ⟨mid, first, later⟩ := added
    exact ih each.2 (addRoot?_formed formed each.1 first) later

theorem schemaDefinition_yields : schemaDefinition.Yields Definition.Formed := by
  refine (directives_yields 50).bind fun ds directives => (expect_yields _).bind fun _ _ => ?_
  refine (upTo_yields (pair_yields name_yields) _).bind fun roots each => ?_
  dsimp only
  split
  · rename_i s added
    have bare : (SchemaDefinition.mk ds none none none).Formed :=
      ⟨directives, by simp, by simp, by simp⟩
    exact .pure (addRoots_formed (fun root member => (each root member).2) bare added)
  · exact .throw _

theorem typeDefinition_yields (description : Option String) (keyword : Name) :
    (typeDefinition description keyword).Yields Definition.Formed := by
  unfold typeDefinition
  split
  · rename_i known
    exact (typeNode?_yields known).bind fun node formed => .pure formed
  · exact .throw _

theorem definition_yields : definition.Yields Definition.Formed := by
  refine description_yields.bind fun description _ => name_yields.bind fun keyword _ => ?_
  split
  · exact directiveDefinition_yields _
  · exact schemaDefinition_yields
  · exact extension_yields
  · exact typeDefinition_yields _ _

theorem document_yields : document.Yields Document.Formed :=
  definition_yields.bind fun _ first => (whileNext_yields definition_yields _).bind fun _ more =>
    .pure (List.forall_mem_cons.mpr ⟨first, more⟩)

end Parser

/-- A document that is read is formed. -/
theorem Document.formed_of_parse {text : String} {doc : Document} (read : parse text = .ok doc) :
    doc.Formed := by
  unfold parse at read
  cases scanned : scan text.toList with
  | error e =>
    rw [scanned] at read
    cases read
  | ok ts =>
    rw [scanned] at read
    change ofTokens ts = .ok doc at read
    unfold ofTokens at read
    cases ran : Parser.document.run ts with
    | error e =>
      rw [ran] at read
      cases read
    | ok result =>
      obtain ⟨found, rest⟩ := result
      rw [ran] at read
      cases read
      exact (Parser.document_yields ts found rest (formed_of_scan scanned) ran).1

end SchemaOverlay.Sdl

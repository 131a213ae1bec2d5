import SchemaOverlay.Proofs.Sdl.Reading

/-!
A printed document as a reader sees it. It is read definition by definition, unless a number of it
is not read at all, or one of its definitions is incomplete: an extension that extends nothing, or
a directive without locations. Such a definition is refused whatever stands behind it.
-/
namespace SchemaOverlay.Sdl

def keywords : List Name :=
  ["directive", "schema", "extend", "scalar", "type", "interface", "union", "enum", "input"]

def startsDefinition : Token → Bool
  | .string _ => true
  | .name n => keywords.contains n
  | _ => false

/-- Whether the grammar has a text for the definition. -/
def Definition.isComplete : Definition → Bool
  | .extension node => Parser.extendsSomething node
  | .directive d => !d.locations.isEmpty
  | .schema _ | .type .. => true

namespace Parser

variable {α β : Type} {ts rest : List Token}

/-- What comes next, if anything does, begins a definition. -/
def Apart (rest : List Token) : Prop := ∀ t ∈ rest.head?, startsDefinition t = true

theorem Apart.closed (apart : Apart rest) : Closed rest := by
  intro m head
  cases apart _ head

theorem Apart.ne (apart : Apart rest) {t : Token} (other : startsDefinition t = false) :
    rest.head? ≠ some t := by
  intro head
  rw [apart t head] at other
  cases other

theorem head_append {t : Token} (first : ts.head? ≠ some t) (behind : rest.head? ≠ some t) :
    (ts ++ rest).head? ≠ some t := by
  cases ts with
  | nil => exact behind
  | cons u more => exact first

theorem head_inBraces {t : Token} (other : t ≠ .mark .openBrace) (members : List (List Piece)) :
    (lex (Sdl.inBraces members)).head? ≠ some t := by
  rw [lex_inBraces]
  split
  · simp
  · intro head
    exact other (Option.some.inj head).symm

theorem head_listing {t : Token} {lead : Piece} (first : ∀ ts, (lead.tokens ++ ts).head? ≠ some t)
    {mark : Mark} (names : List Name) : (lex (listing lead mark names)).head? ≠ some t := by
  rw [lex_listing]
  split
  · simp
  · exact first _

theorem names_reads {mark : Mark} (n : Name) (names : List Name)
    (behind : rest.head? ≠ some (.mark mark)) :
    (separated (.mark mark) name).Reads (marked mark (n :: names) ++ rest) (n :: names) rest := by
  have listed := separated_reads id (fun m (_ : m ∈ n :: names) rest => name_reads m rest)
    behind
  rwa [List.map_id] at listed

theorem implements_reads {names : List Name} (free : rest.head? ≠ some (.name "implements"))
    (behind : rest.head? ≠ some (.mark .ampersand)) :
    implements.Reads (lex (listing (.word "implements") .ampersand names) ++ rest) names rest := by
  rw [lex_listing]
  cases names with
  | nil => exact (accept_passes free).bind (.pure [] rest)
  | cons n more => exact (accept_reads _ _).bind (names_reads n more behind)

theorem block_reads {item : Nat → Parser α} {pieces : β → List Piece} {read : β → α} {bs : List β}
    (reads : ∀ b ∈ bs, ∀ rest, Closed rest → (item 49).Reads (lex (pieces b) ++ rest) (read b) rest)
    (begins : ∀ b ∈ bs, ∃ text n ts, lex (pieces b) = descriptionTokens text ++ .name n :: ts)
    (behind : rest.head? ≠ some (.mark .openBrace)) :
    (inBraces maxOpen item).Reads (lex (Sdl.inBraces (bs.map pieces)) ++ rest) (bs.map read) rest :=
  inBraces_reads (fun _ _ => by decide) (parts_of_described .closeBrace reads begins)
    (closed_of_close (.inr rfl)) behind

theorem fields_reads {fields : List Field} (each : ∀ f ∈ fields, f.Formed 49)
    (readable : ∀ p ∈ Sdl.inBraces (fields.map (·.pieces 2)), p.Readable)
    (behind : rest.head? ≠ some (.mark .openBrace)) :
    (inBraces maxOpen field).Reads (lex (Sdl.inBraces (fields.map (·.pieces 2))) ++ rest)
      (fields.map Field.reread) rest := by
  rw [readable_inBraces, List.forall_mem_map] at readable
  exact block_reads (fun f member rest closed =>
    field_reads (each f member) (readable f member) closed)
    (fun f _ => ⟨f.description, f.name, _, by simp [Field.pieces]; rfl⟩) behind

theorem values_reads {values : List EnumValue} (each : ∀ v ∈ values, v.Formed 49)
    (readable : ∀ p ∈ Sdl.inBraces (values.map (·.pieces 2)), p.Readable)
    (behind : rest.head? ≠ some (.mark .openBrace)) :
    (inBraces maxOpen enumValue).Reads (lex (Sdl.inBraces (values.map (·.pieces 2))) ++ rest)
      (values.map EnumValue.reread) rest := by
  rw [readable_inBraces, List.forall_mem_map] at readable
  exact block_reads
    (fun v member rest closed => enumValue_reads (each v member) (readable v member) closed)
    (fun v _ => ⟨v.description, v.name, _, by simp [EnumValue.pieces]; rfl⟩) behind

theorem lines_reads {fields : List InputValue} (each : ∀ v ∈ fields, v.Formed 49)
    (readable : ∀ p ∈ Sdl.inBraces (fields.map (·.line 2)), p.Readable)
    (behind : rest.head? ≠ some (.mark .openBrace)) :
    (inBraces maxOpen inputValue).Reads (lex (Sdl.inBraces (fields.map (·.line 2))) ++ rest)
      (fields.map InputValue.reread) rest := by
  have line : ∀ v : InputValue, lex (v.line 2) = lex (v.pieces 2) :=
    fun v => by simp [InputValue.line]
  rw [readable_inBraces, List.forall_mem_map] at readable
  refine block_reads (fun v member rest closed => ?_) (fun v _ => ?_) behind
  · rw [line]
    exact inputValue_reads (each v member)
      (fun p inside => readable v member p (by simp [InputValue.line, inside])) closed
  · rw [line]
    exact ⟨v.description, v.name, _, by simp [InputValue.pieces]; rfl⟩

section Nodes

def nodeTokens (node : TypeNode) : List Token :=
  .name node.name :: (lex (listing (.word "implements") .ampersand node.body.interfaces) ++
    (lex (directivePieces 0 node.directives) ++ lex node.body.pieces))

theorem lex_node (node : TypeNode) : lex node.pieces = .name node.keyword :: nodeTokens node := by
  simp [TypeNode.pieces, nodeTokens]

theorem node_reads {node : TypeNode} (formed : node.Formed)
    (readable : ∀ p ∈ node.pieces, p.Readable) (apart : Apart rest) :
    ∃ p, typeNode? node.keyword = some p ∧ p.Reads (nodeTokens node ++ rest) node.reread rest := by
  obtain ⟨n, ds, body⟩ := node
  simp only [TypeNode.pieces, List.forall_mem_append, List.forall_mem_cons] at readable
  have all := formed.allEntries
  have inside : ∀ p ∈ body.pieces, p.Readable := readable.1.2
  have directives : ∀ ts : List Token, ts.head? ≠ some (.mark .atSign) →
      ts.head? ≠ some (.mark .openParen) →
      (directives maxOpen).Reads (lex (directivePieces 0 ds) ++ ts) (ds.map Directive.reread) ts :=
    fun ts more behind => directives_reads formed.directives readable.1.1.2 more behind
  have shape : nodeTokens ⟨n, ds, body⟩ ++ rest = .name n ::
      (lex (listing (.word "implements") .ampersand body.interfaces) ++
        (lex (directivePieces 0 ds) ++ (lex body.pieces ++ rest))) := by
    simp [nodeTokens]
  rw [shape]
  have braces : ∀ {members : List (List Piece)} {t : Token}, t ≠ .mark .openBrace →
      startsDefinition t = false → (lex (Sdl.inBraces members) ++ rest).head? ≠ some t :=
    fun other notStart => head_append (head_inBraces other _) (apart.ne notStart)
  cases body with
  | scalar =>
    exact ⟨scalarNode, rfl, (name_reads n _).bind
      ((directives rest (apart.ne rfl) (apart.ne rfl)).bind (.pure _ rest))⟩
  | object interfaces fields =>
    have block := fields_reads all.2 inside (apart.ne rfl)
    refine ⟨objectNode, rfl, (name_reads n _).bind ((implements_reads ?_ ?_).bind
      ((directives _ (braces (by simp) rfl) (braces (by simp) rfl)).bind
        (block.bind (.pure _ rest))))⟩
    · exact head_directives (by simp) (braces (by simp) rfl)
    · exact head_directives (by simp) (braces (by simp) rfl)
  | interface interfaces fields =>
    have block := fields_reads all inside (apart.ne rfl)
    refine ⟨interfaceNode, rfl, (name_reads n _).bind ((implements_reads ?_ ?_).bind
      ((directives _ (braces (by simp) rfl) (braces (by simp) rfl)).bind
        (block.bind (.pure _ rest))))⟩
    · exact head_directives (by simp) (braces (by simp) rfl)
    · exact head_directives (by simp) (braces (by simp) rfl)
  | union members =>
    have listed : ∀ {t : Token}, t ≠ .mark .equals → startsDefinition t = false →
        (lex (listing (.mark .equals) .pipe members) ++ rest).head? ≠ some t :=
      fun other notStart =>
      head_append (head_listing (fun ts => by simpa [eq_comm] using other) _) (apart.ne notStart)
    refine ⟨unionNode, rfl, (name_reads n _).bind
      ((directives _ (listed (by simp) rfl) (listed (by simp) rfl)).bind ?_)⟩
    cases members with
    | nil => exact (accept_passes (apart.ne rfl)).bind ((Reads.pure _ _).bind (.pure _ rest))
    | cons m more =>
      have shape : lex (listing (.mark .equals) .pipe (m :: more)) =
          .mark .equals :: marked .pipe (m :: more) := lex_listing _ _ _
      rw [shape]
      exact (accept_reads _ _).bind ((names_reads m more (apart.ne rfl)).bind (.pure _ rest))
  | enum values =>
    have block := values_reads all inside (apart.ne rfl)
    exact ⟨enumNode, rfl, (name_reads n _).bind
      ((directives _ (braces (by simp) rfl) (braces (by simp) rfl)).bind
        (block.bind (.pure _ rest)))⟩
  | inputObject fields =>
    have block := lines_reads all inside (apart.ne rfl)
    exact ⟨inputNode, rfl, (name_reads n _).bind
      ((directives _ (braces (by simp) rfl) (braces (by simp) rfl)).bind
        (block.bind (.pure _ rest)))⟩

theorem extendsSomething_reread (node : TypeNode) :
    extendsSomething node.reread = extendsSomething node := by
  obtain ⟨n, ds, body⟩ := node
  cases body <;> simp [extendsSomething, TypeNode.reread, TypeBody.reread]

end Nodes

section Definitions

theorem keyword_of_typeNode? {keyword : Name} {p : Parser TypeNode}
    (known : typeNode? keyword = some p) :
    keyword ≠ "directive" ∧ keyword ≠ "schema" ∧ keyword ≠ "extend" := by
  refine ⟨?_, ?_, ?_⟩ <;> rintro rfl <;> cases known

theorem locations_reads (l : Location) (ls : List Location)
    (behind : rest.head? ≠ some (.mark .pipe)) :
    locations.Reads (marked .pipe ((l :: ls).map (·.word)) ++ rest) (l :: ls) rest := by
  let place (word : Name) : Location := (Location.ofWord? word).getD l
  have known : ∀ k : Location, place k.word = k := fun k => by
    simp only [place, Location.ofWord?_word, Option.getD_some]
  have reads : ∀ w ∈ (l :: ls).map (·.word), ∀ rest,
    location.Reads (.name w :: rest) (place w) rest := by
    rw [List.forall_mem_map]
    intro k _ rest
    refine (name_reads _ rest).bind ?_
    rw [Location.ofWord?_word, known]
    exact .pure k rest
  have listed : (separated (.mark .pipe) location).Reads
    (marked .pipe ((l :: ls).map (·.word)) ++ rest)
      (((l :: ls).map (·.word)).map place) rest := separated_reads place reads behind
  have back : ((l :: ls).map (·.word)).map place = l :: ls := by
    rw [List.map_map]
    exact (List.map_congr_left fun k _ => known k).trans (List.map_id _)
  rw [back] at listed
  exact (peek_reads _).bind listed

def roots (s : SchemaDefinition) : List (Name × Name) :=
  (s.query.map ("query", ·)).toList ++ (s.mutation.map ("mutation", ·)).toList ++
    (s.subscription.map ("subscription", ·)).toList

theorem addRoots_roots (s : SchemaDefinition) (ds : List Directive) :
    (roots s).foldlM (fun s (operation, type) => addRoot? s operation type) ⟨ds, none, none, none⟩ =
      some { s with directives := ds } := by
  obtain ⟨_, query, mutation, subscription⟩ := s
  cases query <;> cases mutation <;> cases subscription <;> rfl

theorem schema_reads {s : SchemaDefinition} (formed : s.Formed)
    (readable : ∀ p ∈ s.pieces, p.Readable)
    (rest : List Token) : definition.Reads (lex s.pieces ++ rest) (.schema s.reread) rest := by
  simp only [SchemaDefinition.pieces, List.forall_mem_append, List.forall_mem_cons] at readable
  have root : ∀ (operation : Name) (type : Option Name), lex (rootPieces operation type) =
      (type.map (operation, ·)).toList.flatMap fun r => [.name r.1, .mark .colon, .name r.2] := by
    intro operation type
    cases type <;> rfl
  have shape : lex s.pieces ++ rest = .name "schema" :: (lex (directivePieces 0 s.directives) ++
      .mark .openBrace :: ((roots s).flatMap (fun r => [.name r.1, .mark .colon, .name r.2]) ++
        .mark .closeBrace :: rest)) := by
    simp [SchemaDefinition.pieces, root, roots]
  have parts : Parts (· ≠ .mark .closeBrace) (fun _ => True)
      (do
        let operation ← name
        expect (.mark .colon)
        return (operation, ← name))
      (fun r => [.name r.1, .mark .colon, .name r.2]) id (roots s) :=
    { reads := fun r _ rest _ => pair_reads (name_reads r.2 rest)
      begins := fun r _ => ⟨_, _, rfl, by simp, fun _ => trivial⟩ }
  have listed := upTo_reads (fun _ => trivial) parts rest
  rw [List.map_id] at listed
  rw [shape]
  refine (description_reads none (by simp)).bind ((name_reads _ _).bind ?_)
  refine (directives_reads formed.directives readable.1.1.1.1.2 (by simp) (by simp)).bind
    ((expect_reads _ _).bind (listed.bind ?_))
  dsimp only
  rw [addRoots_roots]
  exact .pure _ rest

theorem extension_reads {node : TypeNode} (formed : node.Formed)
    (readable : ∀ p ∈ (Definition.extension node).pieces, p.Readable) (apart : Apart rest) :
    if extendsSomething node then
      definition.Reads (lex (Definition.extension node).pieces ++ rest)
        (.extension node.reread) rest
    else definition.Fails (lex (Definition.extension node).pieces ++ rest) := by
  simp only [Definition.pieces, List.forall_mem_cons] at readable
  obtain ⟨p, known, reads⟩ := node_reads formed readable.2.2 apart
  have shape : lex (Definition.extension node).pieces ++ rest =
      .name "extend" :: .name node.keyword :: (nodeTokens node ++ rest) := by
    simp [Definition.pieces, lex_node]
  rw [shape]
  split
  · rename_i something
    refine (description_reads none (by simp)).bind
      ((name_reads _ _).bind ((name_reads _ _).bind ?_))
    rw [known]
    refine reads.bind ?_
    rw [extendsSomething_reread, if_pos something]
    exact .pure _ rest
  · rename_i nothing
    refine (description_reads none (by simp)).fails
      ((name_reads _ _).fails ((name_reads _ _).fails ?_))
    rw [known]
    refine reads.fails ?_
    rw [extendsSomething_reread, if_neg nothing]
    refine (peek_reads rest).fails ?_
    cases rest.head? <;> exact throw_fails _ _

theorem directiveDefinition_reads {d : DirectiveDefinition} (formed : d.Formed)
    (readable : ∀ p ∈ d.pieces, p.Readable) (apart : Apart rest) :
    if d.locations.isEmpty then definition.Fails (lex d.pieces ++ rest)
    else definition.Reads (lex d.pieces ++ rest) (.directive d.reread) rest := by
  obtain ⟨text, n, vs, again, ls⟩ := d
  simp only [DirectiveDefinition.pieces, List.forall_mem_append, List.forall_mem_cons] at readable
  have arguments : ∀ ts : List Token, ts.head? ≠ some (.mark .openParen) →
      (inParens maxOpen inputValue).Reads (lex (Sdl.inParens (vs.map (·.pieces 0))) ++ ts)
        (vs.map InputValue.reread) ts := fun ts behind =>
    arguments_reads (fun _ _ => by decide) formed.arguments readable.1.1.1.2.2.2.2.2 behind
  let suffix : List Token := if again then [.name "repeatable"] else []
  have shape : lex (DirectiveDefinition.pieces ⟨text, n, vs, again, ls⟩) ++ rest =
      descriptionTokens text ++ .name "directive" :: .mark .atSign :: .name n ::
        (lex (Sdl.inParens (vs.map (·.pieces 0))) ++ (suffix ++
          (lex (listing (.word "on") .pipe (ls.map (·.word))) ++ rest))) := by
    cases again <;> simp [DirectiveDefinition.pieces, suffix]
  have repeated : ∀ ts : List Token, ts.head? ≠ some (.name "repeatable") →
      (accept (.name "repeatable")).Reads (suffix ++ ts) again ts := by
    intro ts behind
    cases again with
    | true => exact accept_reads _ ts
    | false => exact accept_passes behind
  have begins : ∀ ts : List Token, ts.head? ≠ some (.mark .openParen) →
      (suffix ++ ts).head? ≠ some (.mark .openParen) := by
    intro ts behind
    refine head_append ?_ behind
    cases again <;> simp [suffix]
  rw [shape, lex_listing]
  cases ls with
  | nil =>
    exact (description_reads text (by simp)).fails ((name_reads _ _).fails ((expect_reads _ _).fails
      ((name_reads _ _).fails ((arguments _ (begins rest (apart.ne rfl))).fails
        ((repeated rest (apart.ne (by decide))).fails
          ((expect_fails (apart.ne (by decide))).bind _))))))
  | cons l more =>
    exact (description_reads text (by simp)).bind ((name_reads _ _).bind ((expect_reads _ _).bind
      ((name_reads _ _).bind ((arguments _ (begins _ (by simp))).bind
        ((repeated _ (by simp)).bind ((expect_reads _ _).bind
          ((locations_reads l more (apart.ne rfl)).bind (.pure _ rest))))))))

theorem definition_reads {d : Definition} (formed : d.Formed)
    (readable : ∀ p ∈ d.pieces, p.Readable)
    (apart : Apart rest) :
    if d.isComplete then definition.Reads (lex d.pieces ++ rest) d.reread rest
    else definition.Fails (lex d.pieces ++ rest) := by
  cases d with
  | schema s => exact schema_reads formed readable rest
  | type text node =>
    simp only [Definition.pieces, List.forall_mem_append] at readable
    obtain ⟨p, known, reads⟩ := node_reads formed readable.2 apart
    have shape : lex (Definition.type text node).pieces ++ rest =
        descriptionTokens text ++ .name node.keyword :: (nodeTokens node ++ rest) := by
      simp [Definition.pieces, lex_node]
    obtain ⟨notDirective, notSchema, notExtend⟩ := keyword_of_typeNode? known
    rw [shape]
    refine (description_reads text (by simp)).bind ((name_reads _ _).bind ?_)
    split
    · exact absurd ‹_› notDirective
    · exact absurd ‹_› notSchema
    · exact absurd ‹_› notExtend
    · rw [typeDefinition, known]
      exact reads.bind (.pure _ rest)
  | extension node => exact extension_reads formed readable apart
  | directive d =>
    have reads := directiveDefinition_reads formed readable apart
    cases none : d.locations.isEmpty <;> simp_all
      [Definition.isComplete, Definition.pieces, Definition.reread]

theorem begins_definition (d : Definition) :
    ∃ t ts, lex d.pieces = t :: ts ∧ startsDefinition t = true := by
  have described : ∀ (text : Option String) {keyword : Name},
      startsDefinition (.name keyword) = true → ∀ {ts more : List Token},
      ts = descriptionTokens text ++ .name keyword :: more →
      ∃ t more, ts = t :: more ∧ startsDefinition t = true := by
    rintro text keyword known ts more rfl
    cases text with
    | none => exact ⟨_, _, rfl, known⟩
    | some s => exact ⟨_, _, rfl, rfl⟩
  cases d with
  | schema s => exact ⟨_, _, rfl, by decide⟩
  | type text node =>
    have keyword : startsDefinition (.name node.keyword) = true := by
      unfold TypeNode.keyword
      cases node.body <;> dsimp only <;> decide
    exact described text keyword (by simp [Definition.pieces, lex_node]; rfl)
  | extension node => exact ⟨_, _, rfl, by decide⟩
  | directive d =>
    have keyword : startsDefinition (.name "directive") = true := by decide
    exact described d.description keyword
      (by simp [Definition.pieces, DirectiveDefinition.pieces]; rfl)

theorem apart_definitions (ds : List Definition) : Apart (ds.flatMap fun d => lex d.pieces) := by
  cases ds with
  | nil => exact fun _ head => nomatch head
  | cons d rest =>
    obtain ⟨t, ts, shape, start⟩ := begins_definition d
    rw [List.flatMap_cons, shape]
    rintro u head
    exact Option.some.inj head ▸ start

theorem definitions_read {ds : List Definition} (formed : ∀ d ∈ ds, d.Formed)
    (readable : ∀ d ∈ ds, ∀ p ∈ d.pieces, p.Readable) {n : Nat} (enough : ds.length ≤ n) :
    if ds.all Definition.isComplete then
      (repeatUpTo (fun _ => true) definition n).Reads (ds.flatMap fun d => lex d.pieces)
        (ds.map Definition.reread) []
    else (repeatUpTo (fun _ => true) definition n).Fails (ds.flatMap fun d => lex d.pieces) := by
  -- One step reads the first definition and tells that something is behind it.
  induction ds generalizing n with
  | nil =>
    cases n with
    | zero => exact .pure [] []
    | succ n => exact (peek_reads []).bind (.pure [] [])
  | cons d rest ih =>
    obtain ⟨n, rfl⟩ : ∃ m, n = m + 1 := ⟨n - 1, by simp at enough; omega⟩
    rw [List.forall_mem_cons] at formed readable
    have first := definition_reads formed.1 readable.1 (apart_definitions rest)
    have later := ih formed.2 readable.2 (Nat.le_of_succ_le_succ enough)
    have goesOn : ((d :: rest).flatMap fun d => lex d.pieces).head?.any (fun _ => true) = true := by
      obtain ⟨t, ts, shape, _⟩ := begins_definition d
      rw [List.flatMap_cons, shape]
      rfl
    rw [List.all_cons]
    cases complete : d.isComplete with
    | false =>
      rw [complete] at first
      refine (peek_reads _).fails ?_
      rw [goesOn]
      exact Fails.bind first _
    | true =>
      rw [complete] at first
      rw [Bool.true_and]
      split
      · rename_i all
        rw [if_pos all] at later
        refine (peek_reads _).bind ?_
        rw [goesOn]
        exact Reads.bind first (later.bind (.pure _ []))
      · rename_i some
        rw [if_neg some] at later
        refine (peek_reads _).fails ?_
        rw [goesOn]
        exact Reads.fails first (later.bind _)

theorem length_le_definitions (ds : List Definition) :
    ds.length ≤ (ds.flatMap fun d => lex d.pieces).length := by
  induction ds with
  | nil => exact Nat.le_refl _
  | cons d rest ih =>
    obtain ⟨t, ts, shape, _⟩ := begins_definition d
    rw [List.flatMap_cons, shape, List.cons_append, List.length_cons, List.length_cons,
      List.length_append]
    omega

theorem document_reads {ds : List Definition} (formed : ∀ d ∈ ds, d.Formed)
    (readable : ∀ d ∈ ds, ∀ p ∈ d.pieces, p.Readable) :
    if ds ≠ [] ∧ ds.all Definition.isComplete then
      document.Reads (ds.flatMap fun d => lex d.pieces) ⟨ds.map Definition.reread⟩ []
    else document.Fails (ds.flatMap fun d => lex d.pieces) := by
  cases ds with
  | nil => exact ⟨_, rfl⟩
  | cons d rest =>
    rw [List.forall_mem_cons] at formed readable
    have first := definition_reads formed.1 readable.1 (apart_definitions rest)
    have later := definitions_read formed.2 readable.2 (length_le_definitions rest)
    have whole : (get : Parser (List Token)).Reads (rest.flatMap fun d => lex d.pieces)
        (rest.flatMap fun d => lex d.pieces) (rest.flatMap fun d => lex d.pieces) := rfl
    rw [List.all_cons]
    cases complete : d.isComplete with
    | false =>
      rw [complete] at first
      exact Fails.bind first _
    | true =>
      rw [complete] at first
      rw [Bool.true_and]
      split
      · rename_i all
        rw [if_pos all.2] at later
        exact Reads.bind first ((whole.bind later).bind (.pure _ []))
      · rename_i some
        rw [if_neg (fun all => some ⟨by simp, all⟩)] at later
        exact Reads.fails first ((whole.fails later).bind _)

end Definitions

end Parser

namespace Document

open Piece (render)

variable {doc : Document}

theorem readable_iff :
    (∀ p ∈ doc.pieces, p.Readable) ↔ ∀ d ∈ doc.definitions, ∀ p ∈ d.pieces, p.Readable := by
  rw [pieces, forall_mem_joined (by simp), List.forall_mem_map]

theorem lex_pieces (doc : Document) :
    lex doc.pieces = doc.definitions.flatMap fun d => lex d.pieces := by
  rw [pieces, lex_joined rfl, List.flatMap_map]

/-- What is printed is read if there is something to read, every definition is complete and every
number is read. -/
def IsReadable (doc : Document) : Prop :=
  doc.definitions ≠ [] ∧ (∀ d ∈ doc.definitions, d.isComplete = true) ∧ ∀ p ∈ doc.pieces, p.Readable

/-- A printed document is read as the document that its literals stand for, or not at all. -/
theorem parse_print (formed : doc.Formed) :
    (doc.IsReadable → parse doc.print = .ok doc.reread) ∧
      (¬ doc.IsReadable → ∃ e, parse doc.print = .error e) := by
  have shown : doc.print.toList = render doc.pieces ++ [] := by
    rw [List.append_nil]
    exact doc.shows
  have edge : true = true → StartsEdge [] := fun _ _ head => nomatch head
  have parsed : parse doc.print = scan (render doc.pieces ++ []) >>= ofTokens := by
    rw [← shown]
    rfl
  rw [parsed]
  by_cases readable : ∀ p ∈ doc.pieces, p.Readable
  · have scanned := scan_render formed.pieces edge readable doc.spaced_pieces
    have nothing : scan [] = .ok [] := by
      rw [scan_eq]
      rfl
    have tokens : scan (render doc.pieces ++ []) =
      .ok (doc.definitions.flatMap fun d => lex d.pieces) := by
      rw [scanned, nothing, ← lex_pieces]
      exact congrArg Except.ok (List.append_nil _)
    have reads := Parser.document_reads formed (readable_iff.mp readable)
    rw [tokens]
    constructor
    · rintro ⟨some, complete, _⟩
      rw [if_pos ⟨some, List.all_eq_true.mpr complete⟩] at reads
      exact congrArg (Functor.map fun r : Document × List Token => r.1) reads
    · intro incomplete
      rw [if_neg (fun all => incomplete ⟨all.1, List.all_eq_true.mp all.2, readable⟩)] at reads
      obtain ⟨e, failed⟩ := reads
      exact ⟨e, congrArg (Functor.map fun r : Document × List Token => r.1) failed⟩
  · obtain ⟨e, failed⟩ := scan_render_unreadable formed.pieces edge (by simpa using readable)
      doc.spaced_pieces
    rw [failed]
    exact ⟨fun readable' => absurd readable'.2.2 readable, fun _ => ⟨e, rfl⟩⟩

/-- A document that is read is printed as it was exactly if every piece of it is steady. -/
theorem print_reread_iff (formed : doc.Formed) (readable : ∀ p ∈ doc.pieces, p.Readable) :
    doc.reread.print = doc.print ↔ ∀ p ∈ doc.pieces, p.Steady := by
  rw [← String.toList_inj, doc.reread.shows, doc.shows, doc.pieces_reread]
  exact render_reread_iff formed.pieces readable doc.spaced_pieces

end Document

end SchemaOverlay.Sdl

import SchemaOverlay.Proofs.Sdl.Reread
import SchemaOverlay.Proofs.Sdl.Yields

/-!
What is printed is read again: from the tokens of a formed node its rule reads the node, and leaves
what stands behind it, unless that goes on with the node.
-/
namespace SchemaOverlay.Sdl

section Tokens

@[simp] theorem lex_nil : lex [] = [] := rfl

@[simp] theorem lex_cons (p : Piece) (ps : List Piece) : lex (p :: ps) = p.tokens ++ lex ps := rfl

@[simp] theorem lex_append (ps qs : List Piece) : lex (ps ++ qs) = lex ps ++ lex qs :=
  List.flatMap_append

@[simp] theorem tokens_blank : Piece.blank.tokens = [] := rfl

@[simp] theorem tokens_newline : Piece.newline.tokens = [] := rfl

@[simp] theorem tokens_comma : Piece.comma.tokens = [] := rfl

@[simp] theorem tokens_steps (indent : Nat) : (Piece.steps indent).tokens = [] := rfl

@[simp] theorem tokens_mark (m : Mark) : (Piece.mark m).tokens = [.mark m] := rfl

@[simp] theorem tokens_word (n : Name) : (Piece.word n).tokens = [.name n] := rfl

@[simp] theorem tokens_string (indent : Nat) (s : String) :
    (Piece.string indent s).tokens = [.string (rereadText s)] := rfl

theorem lex_joined {separator : List Piece} (nothing : lex separator = [])
    (members : List (List Piece)) :
    lex (joined separator members) = members.flatMap lex := by
  induction members with
  | nil => rfl
  | cons ps rest ih =>
    cases rest with
    | nil => simp [joined]
    | cons qs more => simp [joined, nothing, ih]

theorem lex_listed (members : List (List Piece)) :
    lex (joined [.comma] members) = members.flatMap lex :=
  lex_joined rfl members

theorem lex_inParens (members : List (List Piece)) :
    lex (inParens members) =
      if members.isEmpty then []
      else .mark .openParen :: members.flatMap lex ++ [.mark .closeParen] := by
  have inside := lex_listed members
  unfold inParens
  split <;> simp [inside]

theorem lex_inBraces (members : List (List Piece)) :
    lex (inBraces members) =
      if members.isEmpty then []
      else .mark .openBrace :: members.flatMap lex ++ [.mark .closeBrace] := by
  have inside : lex members.flatten = members.flatMap lex := by
    induction members with
    | nil => rfl
    | cons ps rest ih => simp [ih]
  unfold inBraces
  split <;> simp [inside]

def marked (mark : Mark) : List Name → List Token
  | [] => []
  | n :: rest => .name n :: rest.flatMap fun m => [.mark mark, .name m]

theorem lex_listing (lead : Piece) (mark : Mark) (names : List Name) :
    lex (listing lead mark names) =
      if names.isEmpty then [] else lead.tokens ++ marked mark names := by
  have inside : lex (joined [.blank, .mark mark, .blank] (names.map fun n => [.word n])) =
      marked mark names := by
    induction names with
    | nil => rfl
    | cons n rest ih =>
      cases rest with
      | nil => rfl
      | cons m more => simp_all [joined, marked]
  unfold listing
  split <;> simp [inside]

def descriptionTokens (description : Option String) : List Token :=
  (description.map fun s => .string (rereadText s)).toList

@[simp] theorem lex_inlineDescription (indent : Nat) (description : Option String) :
    lex (inlineDescription indent description) = descriptionTokens description := by
  cases description <;> rfl

@[simp] theorem lex_descriptionLines (indent : Nat) (description : Option String) :
    lex (descriptionLines indent description) = descriptionTokens description := by
  cases description <;> rfl

end Tokens

section Readable

@[simp] theorem readable_mark (m : Mark) : (Piece.mark m).Readable := trivial

@[simp] theorem readable_word (n : Name) : (Piece.word n).Readable := trivial

@[simp] theorem readable_string (indent : Nat) (s : String) :
    (Piece.string indent s).Readable := trivial

@[simp] theorem readable_blank : Piece.blank.Readable := trivial

@[simp] theorem readable_newline : Piece.newline.Readable := trivial

@[simp] theorem readable_comma : Piece.comma.Readable := trivial

@[simp] theorem readable_steps (indent : Nat) : (Piece.steps indent).Readable := trivial

theorem readable_listed (members : List (List Piece)) :
    (∀ p ∈ joined [.comma] members, p.Readable) ↔ ∀ ps ∈ members, ∀ p ∈ ps, p.Readable :=
  forall_mem_joined (by simp)

theorem readable_list {indent : Nat} {items : List Value} :
    (∀ p ∈ (Value.list items).pieces indent, p.Readable) ↔
      ∀ v ∈ items, ∀ p ∈ v.pieces indent, p.Readable := by
  rw [Value.pieces, List.cons_append, List.forall_mem_cons, List.forall_mem_append, readable_listed,
    itemPieces_eq, List.forall_mem_map]
  simp

theorem readable_pairs {indent : Nat} {fields : List (Name × Value)} :
    (∀ ps ∈ fieldPieces indent fields, ∀ p ∈ ps, p.Readable) ↔
      ∀ f ∈ fields, ∀ p ∈ f.2.pieces indent, p.Readable := by
  rw [fieldPieces_eq, List.forall_mem_map]
  simp

theorem readable_object {indent : Nat} {fields : List (Name × Value)} :
    (∀ p ∈ (Value.object fields).pieces indent, p.Readable) ↔
      ∀ f ∈ fields, ∀ p ∈ f.2.pieces indent, p.Readable := by
  rw [Value.pieces, List.cons_append, List.forall_mem_cons, List.forall_mem_append, readable_listed,
    readable_pairs]
  simp

theorem readable_inParens {members : List (List Piece)} :
    (∀ p ∈ inParens members, p.Readable) ↔ ∀ ps ∈ members, ∀ p ∈ ps, p.Readable :=
  forall_mem_inParens readable_mark readable_comma

theorem readable_inBraces {members : List (List Piece)} :
    (∀ p ∈ inBraces members, p.Readable) ↔ ∀ ps ∈ members, ∀ p ∈ ps, p.Readable :=
  forall_mem_inBraces readable_mark readable_blank readable_newline

end Readable

namespace Parser

variable {α β : Type} {p : Parser α} {f : α → Parser β} {a : α} {b : β} {ts mid rest : List Token}

/-- From the tokens the rule reads `a` and leaves the rest. -/
def Reads (p : Parser α) (ts : List Token) (a : α) (rest : List Token) : Prop :=
  p.run ts = .ok (a, rest)

def Fails (p : Parser α) (ts : List Token) : Prop := ∃ e, p.run ts = .error e

theorem Reads.pure (a : α) (ts : List Token) : Reads (Pure.pure a) ts a ts := rfl

theorem Reads.bind (first : p.Reads ts a mid) (next : (f a).Reads mid b rest) :
    (p >>= f).Reads ts b rest := by
  unfold Reads at *
  rw [StateT.run_bind, first]
  exact next

theorem Reads.fails (first : p.Reads ts a mid) (next : (f a).Fails mid) : (p >>= f).Fails ts := by
  obtain ⟨e, failed⟩ := next
  refine ⟨e, ?_⟩
  rw [StateT.run_bind, first]
  exact failed

theorem Fails.bind (failed : p.Fails ts) (f : α → Parser β) : (p >>= f).Fails ts := by
  obtain ⟨e, failed⟩ := failed
  exact ⟨e, by rw [StateT.run_bind, failed]; rfl⟩

theorem throw_fails (e : SyntaxError) (ts : List Token) : (throw e : Parser α).Fails ts := ⟨e, rfl⟩

theorem next_reads (t : Token) (ts : List Token) : next.Reads (t :: ts) t ts := rfl

theorem peek_reads (ts : List Token) : peek.Reads ts ts.head? ts := rfl

theorem refuse_fails (ts : List Token) : (refuse : Parser α).Fails ts := by
  cases ts <;> exact ⟨_, rfl⟩

theorem isNext_self (t : Token) (ts : List Token) : (isNext t).Reads (t :: ts) true (t :: ts) := by
  have same : decide ((t :: ts).head? = some t) = true := decide_eq_true rfl
  exact same ▸ (rfl : (isNext t).Reads (t :: ts) (decide ((t :: ts).head? = some t)) (t :: ts))

theorem isNext_other {t : Token} (other : ts.head? ≠ some t) : (isNext t).Reads ts false ts := by
  have different : decide (ts.head? = some t) = false := decide_eq_false other
  exact different ▸ (rfl : (isNext t).Reads ts (decide (ts.head? = some t)) ts)

theorem discard_next (t : Token) (ts : List Token) : (discard next).Reads (t :: ts) ⟨⟩ ts := rfl

theorem expect_reads (t : Token) (ts : List Token) : (expect t).Reads (t :: ts) ⟨⟩ ts :=
  (isNext_self t ts).bind (discard_next t ts)

theorem expect_fails {t : Token} (other : ts.head? ≠ some t) : (expect t).Fails ts :=
  (isNext_other other).fails ((refuse_fails ts).bind _)

theorem accept_reads (t : Token) (ts : List Token) : (accept t).Reads (t :: ts) true ts :=
  (isNext_self t ts).bind ((discard_next t ts).bind (.pure true ts))

theorem accept_passes {t : Token} (other : ts.head? ≠ some t) : (accept t).Reads ts false ts :=
  (isNext_other other).bind (.pure false ts)

theorem name_reads (n : Name) (ts : List Token) : name.Reads (.name n :: ts) n ts := rfl

theorem description_reads (text : Option String) {ts : List Token}
    (other : ∀ s, ts.head? ≠ some (.string s)) :
    description.Reads (descriptionTokens text ++ ts) (text.map rereadText) ts := by
  cases text with
  | some s => rfl
  | none =>
    refine (peek_reads ts).bind ?_
    split
    · rename_i s head
      exact absurd head (other s)
    · exact .pure none ts

/-- The items are read one after another: each leaves what stands behind it, if that fits, and each
begins with a token that starts an item and fits behind another. -/
structure Parts {α β : Type} (starts : Token → Bool) (fits : List Token → Prop) (item : Parser α)
    (tokens : β → List Token) (read : β → α) (bs : List β) : Prop where
  reads : ∀ b ∈ bs, ∀ rest, fits rest → item.Reads (tokens b ++ rest) (read b) rest
  begins : ∀ b ∈ bs, ∃ t ts, tokens b = t :: ts ∧ starts t = true ∧ ∀ rest, fits (t :: rest)

section Parts

variable {starts : Token → Bool} {fits : List Token → Prop} {item : Parser α}
  {tokens : β → List Token} {read : β → α} {bs : List β}

theorem Parts.cons {b : β} (parts : Parts starts fits item tokens read (b :: bs)) :
    Parts starts fits item tokens read bs :=
  ⟨fun c member => parts.reads c (List.mem_cons_of_mem _ member),
    fun c member => parts.begins c (List.mem_cons_of_mem _ member)⟩

theorem Parts.fits_behind (parts : Parts starts fits item tokens read bs) (ends : fits rest) :
    fits (bs.flatMap tokens ++ rest) := by
  cases bs with
  | nil => exact ends
  | cons c more =>
    obtain ⟨t, ts, shape, _, fit⟩ := parts.begins c (by simp)
    rw [List.flatMap_cons, shape]
    exact fit _

theorem repeatUpTo_reads (parts : Parts starts fits item tokens read bs) (ends : fits rest)
    (stop : ∀ t ∈ rest.head?, starts t = false) {n : Nat} (enough : bs.length ≤ n) :
    (repeatUpTo starts item n).Reads (bs.flatMap tokens ++ rest) (bs.map read) rest := by
  induction n generalizing bs with
  | zero =>
    obtain rfl := List.eq_nil_of_length_eq_zero (Nat.le_zero.mp enough)
    exact .pure [] rest
  | succ n ih =>
    refine (peek_reads _).bind ?_
    cases bs with
    | nil =>
      have ended : rest.head?.any starts = false := by
        cases head : rest.head? with
        | none => rfl
        | some t => exact stop t head
      rw [List.flatMap_nil, List.nil_append, ended]
      exact .pure [] rest
    | cons b more =>
      obtain ⟨t, ts, shape, start, _⟩ := parts.begins b (by simp)
      have goesOn : ((b :: more).flatMap tokens ++ rest).head?.any starts = true := by
        rw [List.flatMap_cons, shape]
        exact start
      rw [goesOn, List.flatMap_cons, List.append_assoc]
      have first := parts.reads b (by simp) _ (parts.cons.fits_behind ends)
      have later := ih parts.cons (Nat.le_of_succ_le_succ enough)
      exact first.bind (later.bind (.pure _ rest))

theorem Parts.length_le (parts : Parts starts fits item tokens read bs) (rest : List Token) :
    bs.length ≤ (bs.flatMap tokens ++ rest).length := by
  induction bs with
  | nil => simp
  | cons b more ih =>
    obtain ⟨t, ts, shape, _⟩ := parts.begins b (by simp)
    have later := ih parts.cons
    rw [List.flatMap_cons, shape, List.cons_append, List.cons_append, List.length_cons,
      List.length_cons, List.append_assoc, List.length_append]
    omega

theorem whileNext_reads (parts : Parts starts fits item tokens read bs) (ends : fits rest)
    (stop : ∀ t ∈ rest.head?, starts t = false) :
    (whileNext starts item).Reads (bs.flatMap tokens ++ rest) (bs.map read) rest :=
  Reads.bind (rfl : (get : Parser (List Token)).Reads _ _ _)
    (repeatUpTo_reads parts ends stop (parts.length_le rest))

variable {close : Token} (closes : ∀ rest, fits (close :: rest))

include closes

theorem upTo_reads (parts : Parts (· ≠ close) fits item tokens read bs) (rest : List Token) :
    (upTo close item).Reads (bs.flatMap tokens ++ close :: rest) (bs.map read) rest := by
  have items := whileNext_reads parts (closes rest) (by simp)
  exact items.bind ((expect_reads close rest).bind (.pure _ rest))

theorem someUpTo_reads {b : β} (parts : Parts (· ≠ close) fits item tokens read (b :: bs))
    (rest : List Token) :
    (someUpTo close item).Reads ((b :: bs).flatMap tokens ++ close :: rest) ((b :: bs).map read)
      rest := by
  rw [List.flatMap_cons, List.append_assoc]
  have first := parts.reads b (by simp) _ (parts.cons.fits_behind (closes rest))
  exact first.bind ((upTo_reads closes parts.cons rest).bind (.pure _ rest))

end Parts

section Brackets

variable {room : Nat} {fits : List Token → Prop} {pieces : β → List Piece} {read : β → α}
  {bs : List β}

theorem opening_reads (t : Token) (inside : Nat → Parser α) (opens : 0 < room)
    (reads : (inside (room - 1)).Reads ts a rest) :
    (opening t room inside).Reads (t :: ts) a rest := by
  obtain ⟨inner, rfl⟩ := Nat.exists_eq_succ_of_ne_zero opens.ne'
  exact (expect_reads t ts).bind reads

variable {item : Nat → Parser α}

theorem inParens_reads (item : Nat → Parser α) (opens : ∀ b ∈ bs, 0 < room)
    (parts : Parts (· ≠ .mark .closeParen) fits (item (room - 1)) (fun b => lex (pieces b)) read bs)
    (closes : ∀ rest, fits (.mark .closeParen :: rest))
    (behind : rest.head? ≠ some (.mark .openParen)) :
    (inParens room item).Reads (lex (Sdl.inParens (bs.map pieces)) ++ rest) (bs.map read) rest := by
  cases bs with
  | nil => exact (isNext_other behind).bind (.pure _ _)
  | cons b more =>
    have shape : lex (Sdl.inParens ((b :: more).map pieces)) ++ rest =
        .mark .openParen :: ((b :: more).flatMap (fun b => lex (pieces b)) ++
          .mark .closeParen :: rest) := by
      simp [lex_inParens, List.flatMap_map]
    rw [shape]
    exact (isNext_self _ _).bind (opening_reads _ (fun room => someUpTo _ (item room))
      (opens b (by simp)) (someUpTo_reads closes parts rest))

theorem inBraces_reads (opens : ∀ b ∈ bs, 0 < room)
    (parts : Parts (· ≠ .mark .closeBrace) fits (item (room - 1)) (fun b => lex (pieces b)) read bs)
    (closes : ∀ rest, fits (.mark .closeBrace :: rest))
    (behind : rest.head? ≠ some (.mark .openBrace)) :
    (inBraces room item).Reads (lex (Sdl.inBraces (bs.map pieces)) ++ rest) (bs.map read) rest := by
  cases bs with
  | nil => exact (isNext_other behind).bind (.pure _ _)
  | cons b more =>
    have shape : lex (Sdl.inBraces ((b :: more).map pieces)) ++ rest =
        .mark .openBrace :: ((b :: more).flatMap (fun b => lex (pieces b)) ++
          .mark .closeBrace :: rest) := by
      simp [lex_inBraces, List.flatMap_map]
    rw [shape]
    exact (isNext_self _ _).bind (opening_reads _ (fun room => someUpTo _ (item room))
      (opens b (by simp)) (someUpTo_reads closes parts rest))

end Brackets

theorem separated_reads {mark : Mark} {item : Parser α} (read : Name → α) {n : Name}
    {names : List Name}
    (reads : ∀ m ∈ n :: names, ∀ rest, item.Reads (.name m :: rest) (read m) rest)
    (behind : rest.head? ≠ some (.mark mark)) :
    (separated (.mark mark) item).Reads (marked mark (n :: names) ++ rest)
      ((n :: names).map read) rest := by
  have parts : Parts (· = .mark mark) (fun _ => True) (do expect (.mark mark); item)
      (fun m => [.mark mark, .name m]) read names :=
    { reads := fun m member rest _ =>
        (expect_reads _ _).bind (reads m (List.mem_cons_of_mem _ member) rest)
      begins := fun m _ => ⟨.mark mark, [.name m], rfl, by simp, fun _ => trivial⟩ }
  have stop : ∀ t ∈ rest.head?, decide (t = .mark mark) = false := by
    rintro t head
    rw [decide_eq_false_iff_not]
    rintro rfl
    exact behind head
  have more := whileNext_reads parts trivial stop
  change (separated (.mark mark) item).Reads
    (.name n :: (names.flatMap (fun m => [.mark mark, .name m]) ++ rest)) _ rest
  have lead : ∀ ts, (discard (accept (.mark mark))).Reads (.name n :: ts) ⟨⟩ (.name n :: ts) := by
    intro ts
    change (accept (.mark mark) >>= fun _ => pure PUnit.unit).Reads _ _ _
    exact (accept_passes (by simp)).bind (.pure _ _)
  exact (lead _).bind ((reads n (by simp) _).bind (more.bind (.pure _ rest)))

section Values

variable {vars : Bool} {room : Nat} {v : Value}

theorem value_reads {t : Token} (reads : ∀ inside, (valueFrom vars inside t).Reads ts v rest) :
    (value vars room).Reads (t :: ts) v rest := by
  cases room with
  | zero => exact (next_reads t ts).bind (reads none)
  | succ inner => exact (next_reads t ts).bind (reads (some (value vars inner)))

theorem pair_reads {item : Parser α} {n : Name} (reads : item.Reads ts a rest) :
    (do
      let n ← name
      expect (.mark .colon)
      return (n, ← item) : Parser (Name × α)).Reads (.name n :: .mark .colon :: ts) (n, a) rest :=
  (name_reads n _).bind ((expect_reads _ ts).bind (reads.bind (.pure _ rest)))

theorem wordValue_of_free {n : Name} (free : n ≠ "true" ∧ n ≠ "false" ∧ n ≠ "null") :
    wordValue n = .enum n := by
  unfold wordValue
  split
  · exact absurd rfl free.1
  · exact absurd rfl free.2.1
  · exact absurd rfl free.2.2
  · rfl

theorem begins_value (formed : v.Formed vars room) {indent : Nat}
    (readable : ∀ p ∈ v.pieces indent, p.Readable) :
    ∃ t ts, lex (v.pieces indent) = t :: ts ∧ t ≠ .mark .closeBracket := by
  cases formed with
  | float canonical =>
    rename_i x
    have known := (Binary64.token?_isSome_iff canonical).mpr
      (readable (.float x) (by simp [Value.pieces]))
    obtain ⟨t, read⟩ := Option.isSome_iff_exists.mp known
    refine ⟨t, [], by simp [Value.pieces, Piece.tokens, read], ?_⟩
    rintro rfl
    rcases token?_cases read with same | ⟨_, same, _⟩ | ⟨same, _⟩ <;> cases same
  | _ => exact ⟨_, _, rfl, by simp⟩

variable {indent inner : Nat}

theorem list_reads {items : List Value}
    (begins : ∀ v ∈ items, ∃ t ts, lex (v.pieces indent) = t :: ts ∧ t ≠ .mark .closeBracket)
    (reads : ∀ v ∈ items, ∀ rest,
      (value vars inner).Reads (lex (v.pieces indent) ++ rest) v.reread rest) (rest : List Token) :
    (value vars (inner + 1)).Reads (lex ((Value.list items).pieces indent) ++ rest)
      (Value.list items).reread rest := by
  have parts : Parts (· ≠ .mark .closeBracket) (fun _ => True) (value vars inner)
      (fun v => lex (v.pieces indent)) Value.reread items :=
    { reads := fun v member rest _ => reads v member rest
      begins := fun v member => by
        obtain ⟨t, ts, shape, other⟩ := begins v member
        exact ⟨t, ts, shape, by simpa using other, fun _ => trivial⟩ }
  have inside := upTo_reads (fun _ => trivial) parts rest
  have shape : lex ((Value.list items).pieces indent) ++ rest =
      .mark .openBracket :: (items.flatMap (fun v => lex (v.pieces indent)) ++
        .mark .closeBracket :: rest) := by
    simp [Value.pieces, itemPieces_eq, lex_listed, List.flatMap_map]
  rw [shape, Value.reread, rereadItems_eq]
  exact (next_reads _ _).bind (inside.bind (.pure _ rest))

theorem pairs_parts (close : Mark) (indent : Nat) {item : Parser Value}
    {pairs : List (Name × Value)}
    (reads : ∀ f ∈ pairs, ∀ rest, item.Reads (lex (f.2.pieces indent) ++ rest) f.2.reread rest) :
    Parts (· ≠ .mark close) (fun _ => True)
      (do
        let n ← name
        expect (.mark .colon)
        return (n, ← item))
      (fun f => lex (.word f.1 :: .mark .colon :: .blank :: f.2.pieces indent))
      (fun f => (f.1, f.2.reread)) pairs where
  reads := fun f member rest _ => pair_reads (reads f member rest)
  begins := fun f _ => ⟨_, _, rfl, by simp, fun _ => trivial⟩

theorem object_reads {fields : List (Name × Value)} (sorted : SortedFields fields)
    (reads : ∀ f ∈ fields, ∀ rest,
      (value vars inner).Reads (lex (f.2.pieces indent) ++ rest) f.2.reread rest)
    (rest : List Token) :
    (value vars (inner + 1)).Reads (lex ((Value.object fields).pieces indent) ++ rest)
      (Value.object fields).reread rest := by
  have inside := upTo_reads (fun _ => trivial) (pairs_parts .closeBrace indent reads) rest
  have shape : lex ((Value.object fields).pieces indent) ++ rest =
      .mark .openBrace :: (fields.flatMap
        (fun f => lex (.word f.1 :: .mark .colon :: .blank :: f.2.pieces indent)) ++
        .mark .closeBrace :: rest) := by
    simp [Value.pieces, fieldPieces_eq, lex_listed, List.flatMap_map]
  have kept : SortedFields (fields.map fun f => (f.1, f.2.reread)) := by
    rwa [SortedFields, List.pairwise_map]
  rw [shape, Value.reread, rereadFields_eq, ← sortFields_of_sorted kept]
  exact (next_reads _ _).bind (inside.bind (.pure _ rest))

theorem value_reads_pieces (formed : v.Formed vars room)
    (readable : ∀ p ∈ v.pieces indent, p.Readable) (rest : List Token) :
    (value vars room).Reads (lex (v.pieces indent) ++ rest) v.reread rest := by
  induction formed generalizing rest with
  | var allowed name =>
    rename_i n
    refine value_reads fun inside => ?_
    rw [valueFrom, if_pos allowed]
    exact (name_reads n rest).bind (.pure _ rest)
  | int bounds => exact value_reads fun _ => .pure _ rest
  | float canonical =>
    rename_i x
    have known := (Binary64.token?_isSome_iff canonical).mpr
      (readable (.float x) (by simp [Value.pieces]))
    obtain ⟨t, read⟩ := Option.isSome_iff_exists.mp known
    have shape : lex ((Value.float x).pieces indent) ++ rest = t :: rest := by
      simp [Value.pieces, Piece.tokens, read]
    rw [shape, Value.reread, rereadFloat, read]
    refine value_reads fun inside => ?_
    rcases token?_cases read with rfl | ⟨_, rfl, _⟩ | ⟨rfl, _⟩ <;> exact .pure _ rest
  | string s => exact value_reads fun _ => .pure _ rest
  | boolean b => cases b <;> exact value_reads fun _ => .pure _ rest
  | null => exact value_reads fun _ => .pure _ rest
  | enum name free =>
    rename_i n
    have word : (Value.enum n).reread = wordValue n := (wordValue_of_free free).symm
    rw [word]
    exact value_reads fun _ => .pure _ rest
  | list each ih =>
    rename_i inner items
    have readable' : ∀ v ∈ items, ∀ p ∈ v.pieces indent, p.Readable := by
      rwa [readable_list] at readable
    exact list_reads (fun v member => begins_value (each v member) (readable' v member))
      (fun v member => ih v member (readable' v member)) rest
  | object sorted names each ih =>
    rename_i inner fields
    have readable' : ∀ f ∈ fields, ∀ p ∈ f.2.pieces indent, p.Readable := by
      rwa [readable_object] at readable
    exact object_reads sorted (fun f member => ih f member (readable' f member)) rest

end Values

section Members

variable {room : Nat}

/-- A type is read, and with it the mark behind it if it has none yet. -/
theorem typeRef_reads_both {t : TypeRef} (formed : t.Formed room) :
    (∀ rest : List Token, rest.head? ≠ some (.mark .bang) →
      (typeRef room).Reads (lex t.pieces ++ rest) t rest) ∧
    ((∀ u, t ≠ .nonNull u) → ∀ rest,
      (typeRef room).Reads (lex t.pieces ++ .mark .bang :: rest) (.nonNull t) rest) := by
  induction formed with
  | named name =>
    constructor
    · intro rest behind
      unfold typeRef
      exact (next_reads _ _).bind ((Reads.pure _ _).bind
        ((accept_passes behind).bind (.pure _ rest)))
    · intro _ rest
      unfold typeRef
      exact (next_reads _ _).bind ((Reads.pure _ _).bind
        ((accept_reads _ rest).bind (.pure _ rest)))
  | list inside ih =>
    rename_i inner item
    have shape : ∀ rest, lex (TypeRef.list item).pieces ++ rest =
        .mark .openBracket :: (lex item.pieces ++ .mark .closeBracket :: rest) := by
      simp [TypeRef.pieces]
    constructor
    · intro rest behind
      rw [shape]
      unfold typeRef
      exact (next_reads _ _).bind ((ih.1 _ (by simp)).bind ((expect_reads _ rest).bind
        ((Reads.pure _ _).bind ((accept_passes behind).bind (.pure _ rest)))))
    · intro _ rest
      rw [shape]
      unfold typeRef
      exact (next_reads _ _).bind ((ih.1 _ (by simp)).bind ((expect_reads _ _).bind
        ((Reads.pure _ _).bind ((accept_reads _ rest).bind (.pure _ rest)))))
  | nonNull inside once ih =>
    refine ⟨fun rest _ => ?_, fun other => absurd rfl (other _)⟩
    have reads := ih.2 once rest
    simpa [TypeRef.pieces] using reads

theorem typeRef_reads {t : TypeRef} (formed : t.Formed room)
    (behind : rest.head? ≠ some (.mark .bang)) :
    (typeRef room).Reads (lex t.pieces ++ rest) t rest :=
  (typeRef_reads_both formed).1 rest behind

theorem directive_reads {d : Directive} (formed : d.Formed room) {indent : Nat}
    (readable : ∀ p ∈ d.pieces indent, p.Readable) (behind : rest.head? ≠ some (.mark .openParen)) :
    (directive room).Reads (lex (d.pieces indent) ++ rest) d.reread rest := by
  have readable' : ∀ a ∈ d.arguments, ∀ p ∈ a.2.pieces indent, p.Readable := by
    rw [Directive.pieces, List.forall_mem_cons, List.forall_mem_cons, readable_inParens,
      readable_pairs] at readable
    exact readable.2.2
  have parts := pairs_parts .closeParen indent fun a member =>
    value_reads_pieces (formed.arguments a member).2.2 (readable' a member)
  have arguments := inParens_reads
    (fun room => do
      let n ← name
      expect (.mark .colon)
      return (n, ← value true room))
    (fun a member => (formed.arguments a member).1) parts (fun _ => trivial) behind
  rw [Directive.pieces, fieldPieces_eq, Directive.reread, rereadFields_eq]
  exact (expect_reads _ _).bind ((name_reads _ _).bind (arguments.bind (.pure _ rest)))

variable {indent : Nat} {ds : List Directive}

theorem directives_reads (each : ∀ d ∈ ds, d.Formed room)
    (readable : ∀ p ∈ directivePieces indent ds, p.Readable)
    (more : rest.head? ≠ some (.mark .atSign))
    (behind : rest.head? ≠ some (.mark .openParen)) :
    (directives room).Reads (lex (directivePieces indent ds) ++ rest)
      (ds.map Directive.reread) rest := by
  have parts : Parts (· = .mark .atSign) (fun rest => rest.head? ≠ some (.mark .openParen))
      (directive room) (fun d => lex (.blank :: d.pieces indent)) Directive.reread ds :=
    { reads := fun d member rest fits => directive_reads (each d member)
        (fun p inside => readable p (List.mem_flatMap.mpr
          ⟨d, member, List.mem_cons_of_mem _ inside⟩)) fits
      begins := fun d _ => ⟨_, _, rfl, by simp, by simp⟩ }
  have shape : lex (directivePieces indent ds) =
      ds.flatMap fun d => lex (.blank :: d.pieces indent) :=
    List.flatMap_assoc
  rw [shape]
  refine whileNext_reads parts behind fun t head => ?_
  rw [decide_eq_false_iff_not]
  rintro rfl
  exact more head

theorem head_directives {t : Token} (other : t ≠ .mark .atSign) (behind : rest.head? ≠ some t) :
    (lex (directivePieces indent ds) ++ rest).head? ≠ some t := by
  cases ds with
  | nil => exact behind
  | cons d more =>
    intro head
    exact other (Option.some.inj head).symm

def Closed (rest : List Token) : Prop :=
  ∀ m, rest.head? = some (.mark m) → m = .closeParen ∨ m = .closeBracket ∨ m = .closeBrace

theorem Closed.ne (closed : Closed rest) {m : Mark}
    (opens : m ≠ .closeParen ∧ m ≠ .closeBracket ∧ m ≠ .closeBrace) :
    rest.head? ≠ some (.mark m) := by
  intro head
  rcases closed m head with same | same | same
  · exact opens.1 same
  · exact opens.2.1 same
  · exact opens.2.2 same

theorem inputValue_reads {v : InputValue} (formed : v.Formed room)
    (readable : ∀ p ∈ v.pieces indent, p.Readable) (behind : Closed rest) :
    (inputValue room).Reads (lex (v.pieces indent) ++ rest) v.reread rest := by
  obtain ⟨text, n, type, default, ds⟩ := v
  simp only [InputValue.pieces, List.forall_mem_append, List.forall_mem_cons] at readable
  have directives := directives_reads formed.directives readable.2 (behind.ne (by decide))
    (behind.ne (by decide))
  have tail : ∀ text', (do
      let ds ← Parser.directives room
      return ⟨text', n, type, default.map Value.reread, ds⟩ : Parser InputValue).Reads
        (lex (directivePieces indent ds) ++ rest)
        ⟨text', n, type, default.map Value.reread, ds.map Directive.reread⟩ rest := fun _ =>
    directives.bind (.pure _ rest)
  have shape : lex (InputValue.pieces indent ⟨text, n, type, default, ds⟩) ++ rest =
      descriptionTokens text ++ .name n :: .mark .colon :: (lex type.pieces ++
        (lex (defaultPieces indent default) ++ (lex (directivePieces indent ds) ++ rest))) := by
    simp [InputValue.pieces]
  rw [shape]
  refine (description_reads text (by simp)).bind
    ((name_reads n _).bind ((expect_reads _ _).bind ?_))
  cases default with
  | none =>
    exact (typeRef_reads formed.type (head_directives (by simp) (behind.ne (by decide)))).bind
      ((accept_passes (head_directives (by simp) (behind.ne (by decide)))).bind
        ((Reads.pure _ _).bind (tail _)))
  | some d =>
    have readable' : ∀ p ∈ d.pieces indent, p.Readable := fun p member =>
      readable.1.2 p (by simp [defaultPieces, member])
    have value := value_reads_pieces (formed.default d rfl) readable'
      (lex (directivePieces indent ds) ++ rest)
    have shape : lex (defaultPieces indent (some d)) ++ (lex (directivePieces indent ds) ++ rest) =
        .mark .equals :: (lex (d.pieces indent) ++ (lex (directivePieces indent ds) ++ rest)) := by
      simp [defaultPieces]
    rw [shape]
    exact (typeRef_reads formed.type (by simp)).bind
      ((accept_reads _ _).bind (value.bind ((Reads.pure _ _).bind (tail _))))

theorem begins_described (text : Option String) (n : Name) (ts : List Token) :
    ∃ t more, descriptionTokens text ++ .name n :: ts = t :: more ∧
      ((∃ s, t = .string s) ∨ ∃ m, t = .name m) := by
  cases text with
  | none => exact ⟨_, _, rfl, .inr ⟨n, rfl⟩⟩
  | some s => exact ⟨_, _, rfl, .inl ⟨_, rfl⟩⟩

theorem parts_of_described {β : Type} {item : Parser α} {pieces : β → List Piece} {read : β → α}
    {bs : List β} (close : Mark)
    (reads : ∀ b ∈ bs, ∀ rest, Closed rest → item.Reads (lex (pieces b) ++ rest) (read b) rest)
    (begins : ∀ b ∈ bs, ∃ text n ts, lex (pieces b) = descriptionTokens text ++ .name n :: ts) :
    Parts (· ≠ .mark close) Closed item (fun b => lex (pieces b)) read bs where
  reads := reads
  begins := by
    intro b member
    obtain ⟨text, n, ts, shape⟩ := begins b member
    obtain ⟨t, more, split, kind⟩ := begins_described text n ts
    refine ⟨t, more, shape.trans split, ?_, ?_⟩
    · rcases kind with ⟨s, rfl⟩ | ⟨m, rfl⟩ <;> simp
    · rintro rest m head
      rcases kind with ⟨s, rfl⟩ | ⟨m, rfl⟩ <;> cases head

theorem closed_of_close {close : Mark} (closes : close = .closeParen ∨ close = .closeBrace)
    (rest : List Token) : Closed (.mark close :: rest) := by
  intro m head
  cases head
  exact closes.imp_right .inr

theorem arguments_reads {vs : List InputValue} (opens : ∀ v ∈ vs, 0 < room)
    (each : ∀ v ∈ vs, v.Formed (room - 1))
    (readable : ∀ p ∈ Sdl.inParens (vs.map (·.pieces indent)), p.Readable)
    (behind : rest.head? ≠ some (.mark .openParen)) :
    (inParens room inputValue).Reads (lex (Sdl.inParens (vs.map (·.pieces indent))) ++ rest)
      (vs.map InputValue.reread) rest := by
  rw [readable_inParens, List.forall_mem_map] at readable
  have parts : Parts (· ≠ .mark .closeParen) Closed (inputValue (room - 1))
      (fun v => lex (v.pieces indent)) InputValue.reread vs :=
    parts_of_described .closeParen
      (fun v member rest closed => inputValue_reads (each v member) (readable v member) closed)
      (fun v _ => ⟨v.description, v.name, _, by simp [InputValue.pieces]; rfl⟩)
  exact inParens_reads _ opens parts (closed_of_close (.inl rfl)) behind

theorem field_reads {f : Field} (formed : f.Formed room)
    (readable : ∀ p ∈ f.pieces indent, p.Readable)
    (behind : Closed rest) : (field room).Reads (lex (f.pieces indent) ++ rest) f.reread rest := by
  simp only [Field.pieces, List.forall_mem_append, List.forall_mem_cons] at readable
  have shape : lex (f.pieces indent) ++ rest =
      descriptionTokens f.description ++ .name f.name ::
        (lex (Sdl.inParens (f.arguments.map (·.pieces indent))) ++ .mark .colon ::
          (lex f.fieldType.pieces ++ (lex (directivePieces indent f.directives) ++ rest))) := by
    simp [Field.pieces]
  have arguments : ∀ ts, (inParens room inputValue).Reads
      (lex (Sdl.inParens (f.arguments.map (·.pieces indent))) ++ .mark .colon :: ts)
      (f.arguments.map InputValue.reread) (.mark .colon :: ts) := fun ts =>
    arguments_reads (fun v member => (formed.arguments v member).1)
      (fun v member => (formed.arguments v member).2) readable.1.1.1.2.2.2 (by simp)
  have directives := directives_reads formed.directives readable.1.2 (behind.ne (by decide))
    (behind.ne (by decide))
  rw [shape]
  exact (description_reads _ (by simp)).bind ((name_reads _ _).bind ((arguments _).bind
    ((expect_reads _ _).bind ((typeRef_reads formed.type
      (head_directives (by simp) (behind.ne (by decide)))).bind (directives.bind (.pure _ rest))))))

theorem enumValue_reads {v : EnumValue} (formed : v.Formed room)
    (readable : ∀ p ∈ v.pieces indent, p.Readable) (behind : Closed rest) :
    (enumValue room).Reads (lex (v.pieces indent) ++ rest) v.reread rest := by
  simp only [EnumValue.pieces, List.forall_mem_append, List.forall_mem_cons] at readable
  have shape : lex (v.pieces indent) ++ rest = descriptionTokens v.description ++ .name v.name ::
      (lex (directivePieces indent v.directives) ++ rest) := by
    simp [EnumValue.pieces]
  have directives := directives_reads formed.directives readable.1.2.2 (behind.ne (by decide))
    (behind.ne (by decide))
  rw [shape]
  exact (description_reads _ (by simp)).bind
    ((name_reads _ _).bind (directives.bind (.pure _ rest)))

end Members

end Parser

end SchemaOverlay.Sdl

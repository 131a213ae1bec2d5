import SchemaOverlay.Proofs.Sdl.Block
import Mathlib.Data.List.Forall2

/-!
The strings that are written again as they were. One that was written quoted has to be made of
characters that a quoted string gives back. One that was written as a block has to have several
lines, a first and a last one that are not blank, one that begins at the margin, and none with a
carriage return at its end.
-/
namespace SchemaOverlay.Sdl

open Text

structure SteadyLines (ls : List (List Char)) : Prop where
  several : 2 ≤ ls.length
  first : ∀ line ∈ ls.head?, isBlankLine line = false
  last : ∀ line ∈ ls.getLast?, isBlankLine line = false
  atMargin : ∃ line ∈ ls, isBlankLine line = false ∧ lead line = 0
  noReturn : ∀ line ∈ ls, isBlankLine line = false → line.getLast? ≠ some '\r'

def Steady (s : List Char) : Prop :=
  if isBlock s then SteadyLines (lines s) else ∀ c ∈ s, isKept c = true

instance (ls : List (List Char)) : Decidable (SteadyLines ls) :=
  decidable_of_iff
    (2 ≤ ls.length ∧ (∀ line ∈ ls.head?, isBlankLine line = false) ∧
      (∀ line ∈ ls.getLast?, isBlankLine line = false) ∧
      (∃ line ∈ ls, isBlankLine line = false ∧ lead line = 0) ∧
      ∀ line ∈ ls, isBlankLine line = false → line.getLast? ≠ some '\r')
    ⟨fun ⟨several, first, last, atMargin, noReturn⟩ => ⟨several, first, last, atMargin, noReturn⟩,
      fun ⟨several, first, last, atMargin, noReturn⟩ => ⟨several, first, last, atMargin, noReturn⟩⟩

instance (s : List Char) : Decidable (Steady s) :=
  decidable_of_iff (if isBlock s then SteadyLines (lines s) else s.all isKept = true) (by
    rw [Steady, List.all_eq_true])

def blanked (line : List Char) : List Char := if isBlankLine line then [] else line

theorem stripReturn_of_last {line : List Char} (noReturn : line.getLast? ≠ some '\r') :
    stripReturn line = line := if_neg noReturn

theorem stripReturn_sublist (line : List Char) : stripReturn line <+: line := by
  unfold stripReturn
  split
  · exact List.dropLast_prefix line
  · exact List.prefix_rfl

section Joining

variable {ks : List (List Char)}

theorem lines_join (inside : ∀ k ∈ ks, '\n' ∉ k) (last : ∀ k ∈ ks.getLast?, k ≠ []) :
    List.Forall₂ (fun line k => line = k ∨ line = stripReturn k)
      (lines (['\n'].intercalate ks)) ks := by
  induction ks with
  | nil => exact .nil
  | cons k ks ih =>
    rw [List.forall_mem_cons] at inside
    cases ks with
    | nil =>
      have some : k ≠ [] := last k rfl
      rw [List.intercalate_singleton, lines_of_not_mem inside.1, if_neg some]
      exact .cons (.inl rfl) .nil
    | cons l ks =>
      rw [List.intercalate_cons_cons, List.append_assoc, List.singleton_append,
        lines_append_newline inside.1]
      refine .cons (.inr rfl) (ih inside.2 fun k member => last k ?_)
      rwa [List.getLast?_cons_cons]

theorem lines_join_eq (inside : ∀ k ∈ ks, '\n' ∉ k) (last : ∀ k ∈ ks.getLast?, k ≠ [])
    (noReturn : ∀ k ∈ ks, k.getLast? ≠ some '\r') : lines (['\n'].intercalate ks) = ks := by
  have joined := lines_join inside last
  generalize lines (['\n'].intercalate ks) = ls at joined
  clear inside last
  induction joined with
  | nil => rfl
  | @cons line k ls ks same _ ih =>
    rw [List.forall_mem_cons] at noReturn
    rw [stripReturn_of_last noReturn.1, or_self] at same
    rw [same, ih noReturn.2]

theorem eq_of_append_newline {a b x y : List Char} (inA : '\n' ∉ a) (inB : '\n' ∉ b)
    (same : a ++ '\n' :: x = b ++ '\n' :: y) : a = b ∧ x = y := by
  have front : ∀ l r, '\n' ∉ l → (l ++ '\n' :: r).takeWhile (· ≠ '\n') = l := by
    intro l r inside
    rw [List.takeWhile_append_of_pos, List.takeWhile_cons]
    · simp
    · intro c member
      simpa using ne_of_mem_of_not_mem member inside
  have fronts := congrArg (List.takeWhile (· ≠ '\n')) same
  rw [front a x inA, front b y inB] at fronts
  subst fronts
  exact ⟨rfl, (List.cons.inj (List.append_cancel_left same)).2⟩

theorem map_eq_of_flatMap_newline {f : List Char → List Char} {as bs : List (List Char)}
    (inside : ∀ a ∈ as ++ bs, '\n' ∉ f a)
    (same : as.flatMap (fun a => f a ++ ['\n']) = bs.flatMap fun b => f b ++ ['\n']) :
    as.map f = bs.map f := by
  induction as generalizing bs with
  | nil =>
    cases bs with
    | nil => rfl
    | cons b bs => simp at same
  | cons a as ih =>
    cases bs with
    | nil => simp at same
    | cons b bs =>
      simp only [List.flatMap_cons, List.append_assoc, List.singleton_append] at same
      have here := inside a (by simp)
      have there := inside b (by simp)
      obtain ⟨head, rest⟩ := eq_of_append_newline here there same
      rw [List.map_cons, List.map_cons, head]
      refine congrArg _ (ih (fun c member => inside c ?_) rest)
      rcases List.mem_append.mp member with first | second
      · exact List.mem_append_left _ (List.mem_cons_of_mem a first)
      · exact List.mem_append_right _ (List.mem_cons_of_mem b second)

end Joining

theorem mem_of_mem_lines (s : List Char) : ∀ line ∈ lines s, ∀ c ∈ line, c ∈ s := by
  fun_induction lines s with
  | case1 => simp
  | case2 rest ih =>
    rw [List.forall_mem_cons]
    exact ⟨by simp, fun line member c inside => List.mem_cons_of_mem _ (ih line member c inside)⟩
  | case3 rest ih =>
    rw [List.forall_mem_cons]
    refine ⟨by simp, fun line member c inside => ?_⟩
    exact List.mem_cons_of_mem _ (List.mem_cons_of_mem _ (ih line member c inside))
  | case4 d rest _ _ shape _ => simp
  | case5 d rest _ _ head more shape ih =>
    rw [shape, List.forall_mem_cons] at ih
    rw [List.forall_mem_cons, List.forall_mem_cons]
    refine ⟨⟨List.mem_cons_self, fun c inside => List.mem_cons_of_mem d (ih.1 c inside)⟩, ?_⟩
    exact fun line member c inside => List.mem_cons_of_mem d (ih.2 line member c inside)

theorem trimLines_nil_cons (ls : List (List Char)) : trimLines ([] :: ls) = trimLines ls := by
  have blank : isBlankLine [] = true := rfl
  rw [trimLines, List.dropWhile_cons, if_pos blank, trimLines]

theorem trimLines_of_solid {ls : List (List Char)}
    (first : ∀ line ∈ ls.head?, isBlankLine line = false)
    (last : ∀ line ∈ ls.getLast?, isBlankLine line = false) : trimLines ls = ls := by
  have keep : ∀ ks : List (List Char), (∀ line ∈ ks.head?, isBlankLine line = false) →
      ks.dropWhile isBlankLine = ks := by
    intro ks solid
    cases ks with
    | nil => rfl
    | cons k ks => rw [List.dropWhile_cons, if_neg (by simp [solid k rfl])]
  rw [trimLines, keep ls first, keep, List.reverse_reverse]
  rwa [List.head?_reverse]

theorem isBlankLine_blanked (line : List Char) : isBlankLine (blanked line) = isBlankLine line := by
  unfold blanked
  split
  · rename_i blank
    rw [blank]
    rfl
  · rfl

theorem forall_blanked {P : List Char → Prop} {ls : List (List Char)} (empty : P [])
    (solid : ∀ line ∈ ls, isBlankLine line = false → P line) : ∀ k ∈ ls.map blanked, P k := by
  intro k member
  obtain ⟨line, listed, rfl⟩ := List.mem_map.mp member
  unfold blanked
  split
  · exact empty
  · rename_i shown
    exact solid line listed (by simpa using shown)

theorem dropIndent_zero (line : List Char) : dropIndent (some 0) line = line := by
  rw [dropIndent, if_pos (Nat.zero_le _), dropBytes]

theorem rereadLines_of_steady {ls : List (List Char)} (steady : SteadyLines ls) :
    rereadLines ls = ls.map blanked := by
  have texts : ls.map lineText = ls.map blanked := by
    refine List.map_congr_left fun line member => ?_
    unfold lineText blanked
    split
    · rfl
    · rename_i solid
      exact stripReturn_of_last (steady.noReturn line member (by simpa using solid))
  have common : commonIndent? (ls.map blanked) = some 0 := by
    obtain ⟨line, member, solid, margin⟩ := steady.atMargin
    have same : blanked line = line := if_neg (by simp [solid])
    have listed : line ∈ ls.map blanked := List.mem_map.mpr ⟨line, member, same⟩
    obtain ⟨m, common⟩ := exists_commonIndent listed solid
    have zero : m = 0 := Nat.le_zero.mp (margin ▸ commonIndent?_le common listed solid)
    rw [common, zero]
  have undropped : (ls.map blanked).map (dropIndent (some 0)) = ls.map blanked :=
    (List.map_congr_left fun line _ => dropIndent_zero line).trans (List.map_id _)
  rw [rereadLines, texts, unindent_cons, common, undropped, trimLines_nil_cons]
  refine trimLines_of_solid (fun line member => ?_) fun line member => ?_
  · rw [List.head?_map] at member
    obtain ⟨first, head, rfl⟩ := Option.map_eq_some_iff.mp member
    rw [isBlankLine_blanked, steady.first first head]
  · rw [List.getLast?_map] at member
    obtain ⟨last, ends, rfl⟩ := Option.map_eq_some_iff.mp member
    rw [isBlankLine_blanked, steady.last last ends]

theorem writeBlockLine_blanked (n : Nat) (line : List Char) :
    writeBlockLine n (blanked line) = writeBlockLine n line := by
  unfold writeBlockLine
  rw [isBlankLine_blanked]
  split
  · rfl
  · rename_i solid
    rw [blanked, if_neg solid]

theorem all_join {p : Char → Bool} (newline : p '\n' = true) {ks : List (List Char)}
    (all : ∀ k ∈ ks, k.all p = true) : (['\n'].intercalate ks).all p = true := by
  induction ks with
  | nil => rfl
  | cons k ks ih =>
    rw [List.forall_mem_cons] at all
    cases ks with
    | nil => simpa using all.1
    | cons l ks =>
      rw [List.intercalate_cons_cons, List.all_append, List.all_append, all.1, ih all.2]
      simp [newline]

theorem newline_mem_join {ks : List (List Char)} (several : 2 ≤ ks.length) :
    '\n' ∈ ['\n'].intercalate ks := by
  match ks with
  | k :: l :: ks =>
    rw [List.intercalate_cons_cons]
    simp

theorem isBlock_join {ks : List (List Char)} (several : 2 ≤ ks.length)
    (all : ∀ k ∈ ks, k.all (fun c => isBreak c || isPlain c) = true) :
    isBlock (['\n'].intercalate ks) = true := by
  rw [isBlock, all_join rfl all, Bool.and_true, List.contains_eq_mem, decide_eq_true_eq]
  exact newline_mem_join several

theorem writeString_of_steady {s : List Char} (indent : Nat) (block : isBlock s = true)
    (steady : SteadyLines (lines s)) : writeString indent (reread s) = writeString indent s := by
  have value : reread s = ['\n'].intercalate ((lines s).map blanked) := by
    rw [reread, if_pos block, rereadLines_of_steady steady]
  have again : lines (reread s) = (lines s).map blanked := by
    rw [value]
    refine lines_join_eq (forall_blanked (by simp) fun line member _ =>
      newline_not_mem_lines s line member) (fun k member => ?_)
      (forall_blanked (by simp) steady.noReturn)
    rw [List.getLast?_map] at member
    obtain ⟨last, ends, rfl⟩ := Option.map_eq_some_iff.mp member
    intro nothing
    have solid := steady.last last ends
    rw [← isBlankLine_blanked, nothing] at solid
    cases solid
  have block' : isBlock (reread s) = true := by
    rw [value]
    refine isBlock_join (by simpa using steady.several) (forall_blanked rfl fun line member _ => ?_)
    rw [isBlock, Bool.and_eq_true, List.all_eq_true] at block
    exact List.all_eq_true.mpr fun c inside => block.2 c (mem_of_mem_lines s line member c inside)
  have written : (lines (reread s)).flatMap (writeBlockLine (indent + 2)) =
      (lines s).flatMap (writeBlockLine (indent + 2)) := by
    rw [again, List.flatMap_map]
    exact List.flatMap_congr fun line _ => writeBlockLine_blanked (indent + 2) line
  have shape : ∀ t, isBlock t = true → writeString indent t =
      ['"', '"', '"', '\n'] ++ (lines t).flatMap (writeBlockLine (indent + 2)) ++
        spaces indent ++ ['"', '"', '"'] := fun t so => if_pos so
  rw [shape _ block', shape _ block, written]

theorem escapeTriple_injective {a b : List Char} (same : escapeTriple a = escapeTriple b) :
    a = b := by
  have undone := congrArg unescapeTriple same
  rwa [unescapeTriple_escapeTriple, unescapeTriple_escapeTriple] at undone

theorem blanked_of_indented {n : Nat} {a b : List Char}
    (same : indented (n + 1) a = indented (n + 1) b) : blanked a = blanked b := by
  have blank : isBlankLine a = isBlankLine b := by
    rw [← isBlankLine_indented (n + 1) a, same, isBlankLine_indented]
  unfold indented at same
  unfold blanked
  rw [blank] at same ⊢
  by_cases empty : isBlankLine b = true
  · rw [if_pos empty, if_pos empty]
  · rw [if_neg empty, if_neg empty] at same ⊢
    exact escapeTriple_injective (List.append_cancel_left same)

theorem dropBytes_suffix (n : Nat) (line : List Char) : dropBytes n line <:+ line := by
  fun_induction dropBytes n line with
  | case1 line => exact List.suffix_rfl
  | case2 n => exact List.suffix_rfl
  | case3 n c line ih => exact ih.trans (List.suffix_cons c line)

theorem dropIndent_suffix (common : Option Nat) (line : List Char) :
    dropIndent common line <:+ line := by
  unfold dropIndent
  split
  · exact List.suffix_rfl
  · split
    · exact dropBytes_suffix _ line
    · exact List.suffix_rfl

theorem length_dropBytes_lt {n : Nat} (positive : 0 < n) {line : List Char} (some : line ≠ []) :
    (dropBytes n line).length < line.length := by
  cases line with
  | nil => exact absurd rfl some
  | cons c line =>
    cases n with
    | zero => omega
    | succ n =>
      rw [dropBytes]
      have le := (dropBytes_suffix (n + 1 - c.utf8Size) line).length_le
      rw [List.length_cons]
      omega

theorem trimLines_last (ls : List (List Char)) :
    ∀ line ∈ (trimLines ls).getLast?, isBlankLine line = false := by
  intro line member
  rw [trimLines, List.getLast?_reverse] at member
  have first := List.head?_dropWhile_not isBlankLine (ls.dropWhile isBlankLine).reverse
  rw [Option.mem_def] at member
  rw [member] at first
  exact first

theorem mem_of_mem_trimLines {ls : List (List Char)} {line : List Char}
    (member : line ∈ trimLines ls) :
    line ∈ ls := by
  rw [trimLines, List.mem_reverse] at member
  have inside := (List.dropWhile_sublist isBlankLine).subset member
  exact (List.dropWhile_sublist isBlankLine).subset (List.mem_reverse.mp inside)

theorem first_of_untrimmed {ls : List (List Char)} (untrimmed : (trimLines ls).length = ls.length) :
    trimLines ls = ls ∧ ∀ line ∈ ls.head?, isBlankLine line = false := by
  have front := List.dropWhile_suffix isBlankLine (l := ls)
  have back := List.dropWhile_suffix isBlankLine (l := (ls.dropWhile isBlankLine).reverse)
  rw [trimLines, List.length_reverse] at untrimmed
  have shorter := back.length_le
  have short := front.length_le
  rw [List.length_reverse] at shorter
  have whole := front.eq_of_length (by omega)
  have whole' := back.eq_of_length (by rw [List.length_reverse]; omega)
  constructor
  · rw [trimLines, whole', List.reverse_reverse, whole]
  · intro line member
    have first := List.head?_dropWhile_not isBlankLine ls
    rw [Option.mem_def] at member
    rw [whole, member] at first
    exact first

theorem ne_block_of_quoted {indent : Nat} {t x : List Char} (quoted : isBlock t = false) :
    writeString indent t ≠ '"' :: '"' :: '"' :: x := by
  have shape : writeString indent t = '"' :: t.flatMap writeEscaped ++ ['"'] :=
    if_neg fun block => Bool.false_ne_true (quoted.symm.trans block)
  rw [shape]
  cases t with
  | nil => simp
  | cons c t =>
    obtain ⟨d, more, written, noQuote⟩ := head_writeEscaped c
    simp [written, noQuote]

theorem exists_of_map_eq {f : List Char → List Char} {R : List Char → List Char → Prop}
    {as bs : List (List Char)} (same : as.map f = bs.map f) {g : List Char → List Char}
    (related : List.Forall₂ R as (bs.map g)) : ∀ b ∈ bs, ∃ a, f a = f b ∧ R a (g b) := by
  induction bs generalizing as with
  | nil => simp
  | cons b bs ih =>
    cases related with
    | @cons a _ as _ here rest =>
      obtain ⟨head, tail⟩ := List.cons.inj same
      rw [List.forall_mem_cons]
      exact ⟨⟨a, head, here⟩, ih tail rest⟩

theorem map_eq_of_map_eq {f g : List Char → List Char} (finer : ∀ a b, f a = f b → g a = g b)
    {as bs : List (List Char)} (same : as.map f = bs.map f) : as.map g = bs.map g := by
  induction as generalizing bs with
  | nil =>
    obtain rfl := List.map_eq_nil_iff.mp same.symm
    rfl
  | cons a as ih =>
    cases bs with
    | nil => cases same
    | cons b bs =>
      obtain ⟨head, tail⟩ := List.cons.inj same
      rw [List.map_cons, List.map_cons, finer a b head, ih tail]

section Unchanged

variable {indent : Nat} {s : List Char}

theorem isBlock_of_unchanged (block : isBlock s = true)
    (same : writeString indent (reread s) = writeString indent s) :
    isBlock (reread s) = true := by
  cases quoted : isBlock (reread s) with
  | true => rfl
  | false =>
    have shape : writeString indent s = '"' :: '"' :: '"' :: _ := if_pos block
    exact absurd (same.trans shape) (ne_block_of_quoted quoted)

theorem map_blanked_of_unchanged (block : isBlock s = true) (block' : isBlock (reread s) = true)
    (same : writeString indent (reread s) = writeString indent s) :
    (lines (reread s)).map blanked = (lines s).map blanked := by
  have shape : ∀ t, isBlock t = true → writeString indent t = ['"', '"', '"', '\n'] ++
      (lines t).flatMap (fun line => indented (indent + 2) line ++ ['\n']) ++
        spaces indent ++ ['"', '"', '"'] := by
    intro t so
    refine (if_pos so).trans ?_
    rw [List.flatMap_congr fun line _ => writeBlockLine_eq (indent + 2) line]
  rw [shape _ block, shape _ block'] at same
  have same := List.append_cancel_left
    (List.append_cancel_right (List.append_cancel_right same))
  have written := map_eq_of_flatMap_newline (fun line member => ?_) same
  · exact map_eq_of_map_eq (fun _ _ => blanked_of_indented) written
  · refine newline_not_mem_indented _ ?_
    rcases List.mem_append.mp member with here | there
    · exact newline_not_mem_lines _ line here
    · exact newline_not_mem_lines _ line there

def lineValue (ls : List (List Char)) (line : List Char) : List Char :=
  dropIndent (commonIndent? (ls.map lineText)) (lineText line)

theorem rereadLines_eq (ls : List (List Char)) :
    rereadLines ls = trimLines (ls.map (lineValue ls)) := by
  rw [rereadLines, unindent_cons, trimLines_nil_cons, List.map_map]
  rfl

theorem isInfix_lineText (line : List Char) : lineText line <:+: line := by
  unfold lineText
  split
  · exact List.nil_infix
  · exact (stripReturn_sublist line).isInfix

theorem isInfix_lineValue (ls : List (List Char)) (line : List Char) :
    lineValue ls line <:+: line :=
  (dropIndent_suffix _ _).isInfix.trans (isInfix_lineText line)

theorem isBlankLine_of_lineValue {ls : List (List Char)} {line : List Char}
    (solid : isBlankLine (lineValue ls line) = false) : isBlankLine line = false := by
  cases blank : isBlankLine line with
  | false => rfl
  | true =>
    rw [lineValue, lineText, if_pos blank, dropIndent_nil] at solid
    cases solid

theorem steady_of_length {ls : List (List Char)} {line : List Char} (member : line ∈ ls)
    (solid : isBlankLine line = false) (long : line.length ≤ (lineValue ls line).length) :
    line.getLast? ≠ some '\r' ∧ commonIndent? (ls.map lineText) = some 0 := by
  have text : lineText line = stripReturn line := if_neg (by simp [solid])
  have solid' : isBlankLine (lineText line) = false := by rw [text, isBlankLine_stripReturn, solid]
  have dropped := (dropIndent_suffix (commonIndent? (ls.map lineText)) (lineText line)).length_le
  rw [lineValue] at long
  constructor
  · intro last
    obtain ⟨front, rfl⟩ := List.getLast?_eq_some_iff.mp last
    rw [text, stripReturn, if_pos last, List.dropLast_concat] at dropped long
    rw [List.length_append, List.length_singleton] at long
    omega
  · obtain ⟨m, common⟩ := exists_commonIndent (List.mem_map_of_mem member) solid'
    have within := commonIndent?_le common (List.mem_map_of_mem member) solid'
    have whole := lead_le_byteCount (lineText line)
    rcases Nat.eq_zero_or_pos m with rfl | positive
    · exact common
    · have some : lineText line ≠ [] := by
        intro nothing
        rw [nothing] at solid'
        cases solid'
      have shorter := length_dropBytes_lt positive some
      have stripped := (isInfix_lineText line).length_le
      rw [common, dropIndent, if_pos (by omega)] at long
      omega

theorem two_le_length_of_newline {ks : List (List Char)} (inside : ∀ k ∈ ks, '\n' ∉ k)
    (newline : '\n' ∈ ['\n'].intercalate ks) : 2 ≤ ks.length := by
  cases ks with
  | nil => cases newline
  | cons k more =>
    cases more with
    | nil =>
      rw [List.intercalate_singleton] at newline
      exact absurd newline (inside k (by simp))
    | cons l more => simp

theorem exists_atMargin {ls : List (List Char)} (common : commonIndent? (ls.map lineText) = some 0)
    (noReturn : ∀ line ∈ ls, isBlankLine line = false → line.getLast? ≠ some '\r') :
    ∃ line ∈ ls, isBlankLine line = false ∧ lead line = 0 := by
  obtain ⟨text, listed, margin⟩ := List.mem_map.mp (List.min?_mem common)
  obtain ⟨inside, shown⟩ := List.mem_filter.mp listed
  obtain ⟨source, member, rfl⟩ := List.mem_map.mp inside
  have solid : isBlankLine source = false := by
    cases blank : isBlankLine source with
    | false => rfl
    | true =>
      rw [lineText, if_pos blank] at shown
      cases shown
  have own : lineText source = source := by
    rw [lineText, if_neg (by simp [solid]), stripReturn_of_last (noReturn source member solid)]
  exact ⟨source, member, solid, own ▸ margin⟩

theorem steady_of_unchanged (block : isBlock s = true)
    (same : writeString indent (reread s) = writeString indent s) : SteadyLines (lines s) := by
  have block' := isBlock_of_unchanged block same
  have shown := map_blanked_of_unchanged block block' same
  have value : reread s = ['\n'].intercalate (rereadLines (lines s)) := if_pos block
  have inside : ∀ k ∈ rereadLines (lines s), '\n' ∉ k := by
    intro k member newline
    rw [rereadLines_eq] at member
    obtain ⟨line, listed, rfl⟩ := List.mem_map.mp (mem_of_mem_trimLines member)
    exact newline_not_mem_lines s line listed ((isInfix_lineValue _ line).subset newline)
  have ends : ∀ k ∈ (rereadLines (lines s)).getLast?, isBlankLine k = false := trimLines_last _
  have joined := lines_join inside fun k member nothing => by
    have solid := ends k member
    rw [nothing] at solid
    cases solid
  rw [← value] at joined
  -- As many lines come back as were shown, so none was trimmed away.
  have count : (rereadLines (lines s)).length = (lines s).length := by
    have counts := congrArg List.length shown
    rw [List.length_map, List.length_map] at counts
    rw [← joined.length_eq, counts]
  have full : (trimLines ((lines s).map (lineValue (lines s)))).length =
      ((lines s).map (lineValue (lines s))).length := by
    rw [← rereadLines_eq, count, List.length_map]
  obtain ⟨untrimmed, first⟩ := first_of_untrimmed full
  rw [rereadLines_eq, untrimmed] at joined ends value inside
  have several : 2 ≤ (lines s).length := by
    rw [isBlock, Bool.and_eq_true, List.contains_eq_mem, decide_eq_true_eq, value] at block'
    have two := two_le_length_of_newline inside block'.1
    rwa [List.length_map] at two
  -- A line that lost its margin or its return would come back shorter.
  have kept : ∀ line ∈ lines s, isBlankLine line = false →
      line.getLast? ≠ some '\r' ∧ commonIndent? ((lines s).map lineText) = some 0 := by
    intro line member solid
    refine steady_of_length member solid ?_
    obtain ⟨again, alike, read⟩ := exists_of_map_eq shown joined line member
    have bound : again.length ≤ (lineValue (lines s) line).length := by
      rcases read with rfl | rfl
      · exact Nat.le_refl _
      · exact (stripReturn_sublist _).length_le
    have solid' : isBlankLine again = false := by
      rw [← isBlankLine_blanked, alike, isBlankLine_blanked, solid]
    rw [blanked, if_neg (by simp [solid']), blanked, if_neg (by simp [solid])] at alike
    rwa [alike] at bound
  have first : ∀ line ∈ (lines s).head?, isBlankLine line = false := by
    intro line head
    refine isBlankLine_of_lineValue (first (lineValue (lines s) line) ?_)
    rw [List.head?_map, Option.mem_def, Option.mem_def.mp head]
    rfl
  have last : ∀ line ∈ (lines s).getLast?, isBlankLine line = false := by
    intro line last
    refine isBlankLine_of_lineValue (ends (lineValue (lines s) line) ?_)
    rw [List.getLast?_map, Option.mem_def, Option.mem_def.mp last]
    rfl
  have noReturn := fun line member solid => (kept line member solid).1
  obtain ⟨line, more, shape⟩ : ∃ line more, lines s = line :: more :=
    List.exists_cons_of_length_pos (by omega)
  have common := (kept line (by simp [shape]) (first line (by simp [shape]))).2
  exact ⟨several, first, last, exists_atMargin common noReturn, noReturn⟩

end Unchanged

/-- What is read of a string is written as the string was if, and only if, the string is steady. -/
theorem writeString_reread_iff (indent : Nat) (s : List Char) :
    writeString indent (reread s) = writeString indent s ↔ Steady s := by
  unfold Steady
  by_cases block : isBlock s = true
  · rw [if_pos block]
    exact ⟨steady_of_unchanged block, writeString_of_steady indent block⟩
  · rw [if_neg block]
    have value : reread s = s.flatMap rereadChar := if_neg block
    have written : writeString indent s = '"' :: s.flatMap writeEscaped ++ ['"'] := if_neg block
    constructor
    · intro same
      have quoted : ¬ isBlock (reread s) = true := by
        intro again
        have shape : writeString indent (reread s) = '"' :: '"' :: '"' :: _ := if_pos again
        exact ne_block_of_quoted (Bool.eq_false_iff.mpr block) (same.symm.trans shape)
      have again : writeString indent (reread s) =
          '"' :: (reread s).flatMap writeEscaped ++ ['"'] := if_neg quoted
      rw [again, written, value] at same
      exact (writeQuoted_reread_iff s).mp (List.append_cancel_right (List.cons.inj same).2)
    · intro kept
      have whole : s.flatMap rereadChar = s :=
        (List.flatMap_congr fun c member => if_pos (kept c member)).trans
          (List.flatMap_singleton' s)
      rw [value, whole]

end SchemaOverlay.Sdl

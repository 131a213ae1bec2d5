import SchemaOverlay.Proofs.Sdl.Quoted
import SchemaOverlay.Sdl.Token.Scan
import Mathlib.Data.List.Basic
import Mathlib.Data.List.TakeWhile

/-!
A block string, written and read. Every line of a text is written on a line of its own behind the same
spaces, and every block string that is written is read to its end. What is read are the lines without the
indent that they share, and without the blank ones before the first and behind the last other line.
-/
namespace SchemaOverlay.Sdl

open Text

theorem splitBlock_cons {c : Char} {l : List Char}
    (noEscape : ∀ r, c = '\\' → l ≠ '"' :: '"' :: '"' :: r)
    (noClose : ∀ r, c = '"' → l ≠ '"' :: '"' :: r) :
    splitBlock (c :: l) = following [c] (splitBlock l) := by
  rw [splitBlock.eq_def]
  split <;> simp_all

theorem exists_of_escapeTriple_eq {l r x : List Char}
    (head : escapeTriple l ++ '\n' :: r = '"' :: x) :
    ∃ l', l = '"' :: l' ∧ x = escapeTriple l' ++ '\n' :: r := by
  rw [escapeTriple.eq_def] at head
  split at head
  · cases (List.cons.inj head).1
  · cases (List.cons.inj head).1
  · obtain ⟨rfl, rfl⟩ := List.cons.inj head
    exact ⟨_, rfl, rfl⟩

theorem escapeTriple_ne_triple (l r x : List Char) :
    escapeTriple l ++ '\n' :: r ≠ '"' :: '"' :: '"' :: x := by
  intro head
  obtain ⟨_, rfl, second⟩ := exists_of_escapeTriple_eq head
  obtain ⟨_, rfl, third⟩ := exists_of_escapeTriple_eq second.symm
  obtain ⟨_, rfl, _⟩ := exists_of_escapeTriple_eq third.symm
  rw [escapeTriple] at head
  cases (List.cons.inj head).1

theorem splitBlock_escapeTriple (l r : List Char) :
    splitBlock (escapeTriple l ++ '\n' :: r) =
      following (escapeTriple l ++ ['\n']) (splitBlock r) := by
  fun_induction escapeTriple l with
  | case1 => exact splitBlock_cons (by simp) (by simp)
  | case2 rest ih =>
    rw [List.cons_append, List.cons_append, List.cons_append, List.cons_append, splitBlock, ih,
      following_following]
    rfl
  | case3 c rest noTriple ih =>
    rw [List.cons_append, splitBlock_cons, ih, following_following]
    · rfl
    · exact fun x _ => escapeTriple_ne_triple rest r x
    · intro x quote head
      obtain ⟨_, rfl, second⟩ := exists_of_escapeTriple_eq head
      obtain ⟨_, rfl, _⟩ := exists_of_escapeTriple_eq second.symm
      exact noTriple _ quote rfl

theorem splitBlock_spaces (n : Nat) (r : List Char) :
    splitBlock (spaces n ++ r) = following (spaces n) (splitBlock r) := by
  induction n with
  | zero => exact (following_nil _).symm
  | succ n ih =>
    rw [spaces, List.replicate_succ, List.cons_append, splitBlock_cons (by simp) (by simp)]
    rw [spaces] at ih
    rw [ih, following_following]
    rfl

theorem unescapeTriple_cons {c : Char} {l : List Char}
    (noEscape : ∀ r, c = '\\' → l ≠ '"' :: '"' :: '"' :: r) :
    unescapeTriple (c :: l) = c :: unescapeTriple l := by
  rw [unescapeTriple.eq_def]
  split <;> simp_all

theorem unescapeTriple_escapeTriple (l : List Char) : unescapeTriple (escapeTriple l) = l := by
  fun_induction escapeTriple l with
  | case1 => rfl
  | case2 rest ih => rw [unescapeTriple, ih]
  | case3 c rest _ ih =>
    rw [unescapeTriple_cons, ih]
    intro x _ head
    have head : escapeTriple rest ++ '\n' :: [] = '"' :: '"' :: '"' :: (x ++ ['\n']) := by
      rw [head]
      rfl
    exact escapeTriple_ne_triple rest [] _ head

section Escaped

variable (l : List Char)

@[simp] theorem isBlankLine_escapeTriple : isBlankLine (escapeTriple l) = isBlankLine l := by
  unfold isBlankLine
  fun_induction escapeTriple l with
  | case1 => rfl
  | case2 rest _ => rfl
  | case3 c rest _ ih => rw [List.all_cons, List.all_cons, ih]

theorem takeWhile_escapeTriple :
    (escapeTriple l).takeWhile isWhite = l.takeWhile isWhite := by
  fun_induction escapeTriple l with
  | case1 => rfl
  | case2 rest _ => rfl
  | case3 c rest _ ih => rw [List.takeWhile_cons, List.takeWhile_cons, ih]

theorem getLast?_escapeTriple : (escapeTriple l).getLast? = l.getLast? := by
  fun_induction escapeTriple l with
  | case1 => rfl
  | case2 rest ih =>
    cases rest with
    | nil => rfl
    | cons c rest => simp [List.getLast?_cons, ih]
  | case3 c rest _ ih => rw [List.getLast?_cons, List.getLast?_cons, ih]

theorem escapeTriple_concat {c : Char} (noQuote : c ≠ '"') :
    escapeTriple (l ++ [c]) = escapeTriple l ++ [c] := by
  fun_induction escapeTriple l with
  | case1 => simp [escapeTriple]
  | case2 rest ih => simp [escapeTriple, ih]
  | case3 d rest noTriple ih =>
    rw [List.cons_append, escapeTriple.eq_def]
    split
    · rename_i nothing
      cases nothing
    · rename_i r shape
      obtain ⟨quote, shape⟩ := List.cons.inj shape
      match rest, shape with
      | [], shape => cases shape
      | [_], shape => exact absurd (List.cons.inj (List.cons.inj shape).2).1 noQuote
      | p :: q :: more, shape =>
        obtain ⟨rfl, third⟩ := List.cons.inj shape
        obtain ⟨rfl, _⟩ := List.cons.inj third
        exact (noTriple more quote rfl).elim
    · rename_i shape
      obtain ⟨rfl, rfl⟩ := List.cons.inj shape
      rw [ih]
      rfl

end Escaped

/-- A line as it is read: a carriage return at its end belongs to the line end. -/
def stripReturn (line : List Char) : List Char :=
  if line.getLast? = some '\r' then line.dropLast else line

theorem stripReturn_append (l : List Char) {line : List Char} (some : line ≠ []) :
    stripReturn (l ++ line) = l ++ stripReturn line := by
  unfold stripReturn
  rw [List.getLast?_append_of_ne_nil l some, List.dropLast_append_of_ne_nil some]
  split <;> rfl

theorem stripReturn_escapeTriple (l : List Char) :
    stripReturn (escapeTriple l) = escapeTriple (stripReturn l) := by
  unfold stripReturn
  rw [getLast?_escapeTriple]
  split
  · rename_i last
    obtain ⟨front, rfl⟩ := List.getLast?_eq_some_iff.mp last
    rw [escapeTriple_concat front (by decide), List.dropLast_concat, List.dropLast_concat]
  · rfl

theorem stripReturn_cons {c : Char} {line : List Char} (ending : ¬ (c = '\r' ∧ line = [])) :
    stripReturn (c :: line) = c :: stripReturn line := by
  cases line with
  | nil =>
    have other : c ≠ '\r' := fun same => ending ⟨same, rfl⟩
    simp [stripReturn, other]
  | cons d line => exact stripReturn_append [c] (List.cons_ne_nil d line)

theorem lines_cons {c : Char} {rest : List Char} (newline : c ≠ '\n')
    (noReturn : ∀ r, c = '\r' → rest ≠ '\n' :: r) :
    lines (c :: rest) = match lines rest with
      | [] => [[c]]
      | line :: more => (c :: line) :: more := by
  rw [lines.eq_def]
  split
  case h_4 =>
    rename_i shape
    obtain ⟨rfl, rfl⟩ := List.cons.inj shape
    rfl
  all_goals simp_all

theorem noReturn_of_not_mem {c : Char} {line : List Char} (ending : ¬ (c = '\r' ∧ line = []))
    (inside : '\n' ∉ line) (rest r : List Char) (isReturn : c = '\r') :
    line ++ rest ≠ '\n' :: r := by
  cases line with
  | nil => exact absurd ⟨isReturn, rfl⟩ ending
  | cons d line =>
    intro shape
    obtain ⟨rfl, _⟩ := List.cons.inj shape
    exact inside List.mem_cons_self

theorem lines_append_newline {line : List Char} (inside : '\n' ∉ line) (rest : List Char) :
    lines (line ++ '\n' :: rest) = stripReturn line :: lines rest := by
  induction line with
  | nil => rfl
  | cons c line ih =>
    obtain ⟨newline, inside⟩ := List.ne_and_not_mem_of_not_mem_cons inside
    by_cases ending : c = '\r' ∧ line = []
    · obtain ⟨rfl, rfl⟩ := ending
      rfl
    · rw [List.cons_append, lines_cons (Ne.symm newline), ih inside, stripReturn_cons ending]
      exact fun r isReturn => noReturn_of_not_mem ending inside _ r isReturn

theorem lines_of_not_mem {text : List Char} (inside : '\n' ∉ text) :
    lines text = if text = [] then [] else [text] := by
  induction text with
  | nil => rfl
  | cons c text ih =>
    obtain ⟨newline, inside⟩ := List.ne_and_not_mem_of_not_mem_cons inside
    rw [lines_cons (Ne.symm newline), ih inside]
    · cases text <;> simp
    · rintro r _ rfl
      exact inside List.mem_cons_self

theorem newline_not_mem_lines (text : List Char) : ∀ line ∈ lines text, '\n' ∉ line := by
  fun_induction lines text with
  | case1 => simp
  | case2 rest ih => simpa using ih
  | case3 rest ih => simpa using ih
  | case4 c rest newline _ shape _ => simpa using Ne.symm newline
  | case5 c rest newline _ line more shape ih =>
    rw [shape] at ih
    rw [List.forall_mem_cons] at ih ⊢
    exact ⟨List.not_mem_cons_of_ne_of_not_mem (Ne.symm newline) ih.1, ih.2⟩

theorem isBlankLine_stripReturn (line : List Char) :
    isBlankLine (stripReturn line) = isBlankLine line := by
  unfold stripReturn
  split
  · rename_i last
    obtain ⟨front, rfl⟩ := List.getLast?_eq_some_iff.mp last
    have white : isWhite '\r' = true := by decide
    simp [isBlankLine, white]
  · rfl

def lineText (line : List Char) : List Char := if isBlankLine line then [] else stripReturn line

def indented (n : Nat) (text : List Char) : List Char :=
  if isBlankLine text then [] else spaces n ++ escapeTriple text

theorem writeBlockLine_eq (n : Nat) (line : List Char) :
    writeBlockLine n line = indented n line ++ ['\n'] := by
  unfold writeBlockLine indented
  split <;> simp

theorem newline_not_mem_spaces (n : Nat) : '\n' ∉ spaces n := by
  intro member
  cases List.eq_of_mem_replicate member

theorem mem_escapeTriple_of_newline {line : List Char} (inside : '\n' ∉ line) :
    '\n' ∉ escapeTriple line := by
  fun_induction escapeTriple line with
  | case1 => exact inside
  | case2 rest ih =>
    simp only [List.mem_cons, not_or] at inside ⊢
    exact ⟨by decide, inside.1, inside.2.1, inside.2.2.1, ih inside.2.2.2⟩
  | case3 c rest _ ih =>
    obtain ⟨newline, inside⟩ := List.ne_and_not_mem_of_not_mem_cons inside
    exact List.not_mem_cons_of_ne_of_not_mem newline (ih inside)

theorem newline_not_mem_indented (n : Nat) {line : List Char} (inside : '\n' ∉ line) :
    '\n' ∉ indented n line := by
  unfold indented
  split
  · simp
  · rw [List.mem_append, not_or]
    exact ⟨newline_not_mem_spaces n, mem_escapeTriple_of_newline inside⟩

theorem stripReturn_indented (n : Nat) (line : List Char) :
    stripReturn (indented n line) = indented n (lineText line) := by
  unfold indented lineText
  by_cases blank : isBlankLine line = true
  · rw [if_pos blank, if_pos blank]
    rfl
  · have some : escapeTriple line ≠ [] := by
      intro nothing
      rw [← isBlankLine_escapeTriple, nothing] at blank
      exact blank rfl
    rw [if_neg blank, if_neg blank, isBlankLine_stripReturn, if_neg blank,
      stripReturn_append _ some,
      stripReturn_escapeTriple]

section Written

variable {ls : List (List Char)} (n : Nat)

theorem splitBlock_written (ls : List (List Char)) (rest : List Char) :
    splitBlock (ls.flatMap (writeBlockLine n) ++ rest) =
      following (ls.flatMap (writeBlockLine n)) (splitBlock rest) := by
  induction ls with
  | nil => exact (following_nil _).symm
  | cons line ls ih =>
    have step : ∀ r, splitBlock (writeBlockLine n line ++ r) =
        following (writeBlockLine n line) (splitBlock r) := by
      intro r
      unfold writeBlockLine
      split
      · exact splitBlock_cons (by simp) (by simp)
      · rw [List.append_assoc, List.append_assoc, splitBlock_spaces]
        exact (congrArg _ (splitBlock_escapeTriple line r)).trans (by
          rw [following_following, List.append_assoc])
    rw [List.flatMap_cons, List.append_assoc, step, ih, following_following]

theorem lines_written (inside : ∀ line ∈ ls, '\n' ∉ line) (rest : List Char) :
    lines (ls.flatMap (writeBlockLine n) ++ rest) =
      ls.map (fun line => indented n (lineText line)) ++ lines rest := by
  induction ls with
  | nil => rfl
  | cons line ls ih =>
    rw [List.forall_mem_cons] at inside
    rw [List.flatMap_cons, writeBlockLine_eq, List.append_assoc, List.append_assoc,
      List.singleton_append, lines_append_newline (newline_not_mem_indented n inside.1),
      stripReturn_indented, ih inside.2]
    rfl

end Written

section Indent

def lead (line : List Char) : Nat := byteCount (line.takeWhile isWhite)

def dropIndent (common : Option Nat) (line : List Char) : List Char :=
  match common with
  | none => line
  | some n => if n ≤ byteCount line then dropBytes n line else line

theorem unindent_cons (first : List Char) (more : List (List Char)) :
    unindent (first :: more) = first :: more.map (dropIndent (commonIndent? more)) := by
  rw [unindent]
  cases commonIndent? more with
  | none => exact congrArg _ (List.map_id more).symm
  | some n => rfl

theorem byteCount_spaces_append (n : Nat) (line : List Char) :
    byteCount (spaces n ++ line) = n + byteCount line := by
  induction n with
  | zero => simp [spaces]
  | succ n ih =>
    have one : ' '.utf8Size = 1 := rfl
    rw [spaces, List.replicate_succ, List.cons_append, byteCount, one]
    rw [spaces] at ih
    omega

theorem dropBytes_spaces_append (n m : Nat) (line : List Char) :
    dropBytes (n + m) (spaces n ++ line) = dropBytes m line := by
  induction n with
  | zero => simp [spaces]
  | succ n ih =>
    have one : ' '.utf8Size = 1 := rfl
    rw [spaces, List.replicate_succ, List.cons_append, Nat.succ_add, dropBytes, one]
    exact ih

theorem dropBytes_nil (n : Nat) : dropBytes n [] = [] := by
  cases n <;> rfl

@[simp] theorem dropIndent_nil (common : Option Nat) : dropIndent common [] = [] := by
  cases common with
  | none => rfl
  | some n => simp [dropIndent, dropBytes_nil]

theorem lead_cons_of_white {c : Char} (white : isWhite c = true) (line : List Char) :
    lead (c :: line) = c.utf8Size + lead line := by
  rw [lead, List.takeWhile_cons, if_pos white, byteCount]
  rfl

theorem lead_cons_of_not_white {c : Char} (solid : isWhite c = false) (line : List Char) :
    lead (c :: line) = 0 := by
  rw [lead, List.takeWhile_cons, if_neg (by simp [solid]), byteCount]

theorem lead_le_byteCount (line : List Char) : lead line ≤ byteCount line := by
  induction line with
  | nil => exact Nat.le_refl 0
  | cons c line ih =>
    cases white : isWhite c with
    | true =>
      rw [lead_cons_of_white white, byteCount]
      omega
    | false =>
      rw [lead_cons_of_not_white white]
      omega

theorem lead_escapeTriple (line : List Char) : lead (escapeTriple line) = lead line := by
  rw [lead, takeWhile_escapeTriple, lead]

theorem dropBytes_escapeTriple {m : Nat} {line : List Char} (within : m ≤ lead line) :
    dropBytes m (escapeTriple line) = escapeTriple (dropBytes m line) := by
  induction line generalizing m with
  | nil =>
    rw [escapeTriple, dropBytes_nil]
    rfl
  | cons c line ih =>
    cases m with
    | zero => rw [dropBytes, dropBytes]
    | succ m =>
      cases white : isWhite c with
      | false =>
        rw [lead_cons_of_not_white white] at within
        omega
      | true =>
        rw [lead_cons_of_white white] at within
        have noQuote : c ≠ '"' := by
          rintro rfl
          cases white
        have plain : escapeTriple (c :: line) = c :: escapeTriple line := by
          rw [escapeTriple.eq_def]
          split <;> simp_all
        rw [plain, dropBytes, dropBytes]
        exact ih (by omega)

theorem isBlankLine_dropBytes {line : List Char} (n : Nat) (blank : isBlankLine line = true) :
    isBlankLine (dropBytes n line) = true := by
  fun_induction dropBytes n line with
  | case1 => exact blank
  | case2 => exact blank
  | case3 n c line ih =>
    rw [isBlankLine, List.all_cons, Bool.and_eq_true] at blank
    exact ih blank.2

theorem isBlankLine_dropIndent {line : List Char} (common : Option Nat)
    (blank : isBlankLine line = true) : isBlankLine (dropIndent common line) = true := by
  unfold dropIndent
  split
  · exact blank
  · split
    · exact isBlankLine_dropBytes _ blank
    · exact blank

theorem min?_map_add (n : Nat) (l : List Nat) :
    (l.map (n + ·)).min? = l.min?.map (n + ·) := by
  cases least : l.min? with
  | none =>
    rw [List.min?_eq_none_iff.mp least]
    rfl
  | some a =>
    obtain ⟨member, le⟩ := List.min?_eq_some_iff.mp least
    refine List.min?_eq_some_iff.mpr ⟨List.mem_map_of_mem member, fun b inside => ?_⟩
    obtain ⟨c, listed, rfl⟩ := List.mem_map.mp inside
    exact Nat.add_le_add_left (le c listed) n

variable (n : Nat) {texts tail : List (List Char)}

theorem isBlankLine_indented (text : List Char) :
    isBlankLine (indented n text) = isBlankLine text := by
  unfold indented
  split
  · rename_i blank
    rw [blank]
    rfl
  · have white : (spaces n).all isWhite = true := by
      refine List.all_eq_true.mpr fun c member => ?_
      rw [List.eq_of_mem_replicate member]
      decide
    rw [isBlankLine, List.all_append, white, Bool.true_and]
    exact isBlankLine_escapeTriple text

theorem lead_indented {text : List Char} (solid : isBlankLine text = false) :
    lead (indented n text) = n + lead text := by
  have white : ∀ c ∈ spaces n, isWhite c = true := by
    intro c member
    rw [List.eq_of_mem_replicate member]
    decide
  rw [indented, if_neg (by simp [solid]), lead, List.takeWhile_append_of_pos white,
    byteCount_spaces_append]
  exact congrArg _ (lead_escapeTriple text)

theorem commonIndent?_indented (blank : ∀ line ∈ tail, isBlankLine line = true) :
    commonIndent? (texts.map (indented n) ++ tail) = (commonIndent? texts).map (n + ·) := by
  have noTail : tail.filter (!isBlankLine ·) = [] := by
    refine List.filter_eq_nil_iff.mpr fun line member => ?_
    simp [blank line member]
  have solid : (texts.map (indented n)).filter (!isBlankLine ·) =
      (texts.filter (!isBlankLine ·)).map (indented n) := by
    rw [List.filter_map]
    congr 1
    refine List.filter_congr fun text _ => ?_
    exact congrArg (!·) (isBlankLine_indented n text)
  rw [commonIndent?, List.filter_append, noTail, List.append_nil, solid, commonIndent?,
    ← min?_map_add, List.map_map, List.map_map]
  congr 1
  refine List.map_congr_left fun text member => ?_
  exact lead_indented n (by simpa using (List.mem_filter.mp member).2)

theorem commonIndent?_le {text : List Char} {m : Nat} (common : commonIndent? texts = some m)
    (member : text ∈ texts) (solid : isBlankLine text = false) : m ≤ lead text := by
  refine (List.min?_eq_some_iff.mp common).2 _ ?_
  refine List.mem_map_of_mem (f := lead) (List.mem_filter.mpr ⟨member, ?_⟩)
  simp [solid]

theorem exists_commonIndent {text : List Char} (member : text ∈ texts)
    (solid : isBlankLine text = false) : ∃ m, commonIndent? texts = some m := by
  cases common : commonIndent? texts with
  | some m => exact ⟨m, rfl⟩
  | none =>
    have listed : text ∈ texts.filter (!isBlankLine ·) :=
      List.mem_filter.mpr ⟨member, by simp [solid]⟩
    rw [List.map_eq_nil_iff.mp (List.min?_eq_none_iff.mp common)] at listed
    cases listed

theorem dropIndent_indented {text : List Char} (member : text ∈ texts)
    (empty : isBlankLine text = true → text = []) :
    dropIndent ((commonIndent? texts).map (n + ·)) (indented n text) =
      escapeTriple (dropIndent (commonIndent? texts) text) := by
  cases solid : isBlankLine text with
  | true =>
    rw [empty solid, dropIndent_nil]
    exact dropIndent_nil _
  | false =>
    obtain ⟨m, common⟩ := exists_commonIndent member solid
    have within := commonIndent?_le common member solid
    have whole := lead_le_byteCount text
    have escaped := lead_le_byteCount (escapeTriple text)
    rw [lead_escapeTriple] at escaped
    rw [common, indented, if_neg (by simp [solid]), Option.map_some, dropIndent, dropIndent,
      byteCount_spaces_append, if_pos (by omega), if_pos (by omega), dropBytes_spaces_append,
      dropBytes_escapeTriple within]

end Indent

section Trim

theorem trimLines_append {tail : List (List Char)} (blank : ∀ line ∈ tail, isBlankLine line = true)
    (ls : List (List Char)) : trimLines (ls ++ tail) = trimLines ls := by
  have blank' : ∀ line ∈ tail.reverse, isBlankLine line = true := fun line member =>
    blank line (List.mem_reverse.mp member)
  by_cases all : ls.all isBlankLine = true
  · have none : (ls ++ tail).dropWhile isBlankLine = [] := by
      rw [List.dropWhile_eq_nil_iff]
      intro line member
      rcases List.mem_append.mp member with inside | behind
      · exact List.all_eq_true.mp all line inside
      · exact blank line behind
    have none' : ls.dropWhile isBlankLine = [] :=
      List.dropWhile_eq_nil_iff.mpr (List.all_eq_true.mp all)
    rw [trimLines, none, trimLines, none']
  · have solid : (ls ++ tail).dropWhile isBlankLine = ls.dropWhile isBlankLine ++ tail := by
      rw [List.dropWhile_append, if_neg]
      intro none
      exact all (List.all_eq_true.mpr (List.dropWhile_eq_nil_iff.mp (by simpa using none)))
    rw [trimLines, solid, List.reverse_append, List.dropWhile_append_of_pos blank', trimLines]

theorem trimLines_map {f : List Char → List Char}
    (same : ∀ line, isBlankLine (f line) = isBlankLine line) (ls : List (List Char)) :
    trimLines (ls.map f) = (trimLines ls).map f := by
  have same : isBlankLine ∘ f = isBlankLine := funext same
  rw [trimLines, List.dropWhile_map, same, ← List.map_reverse, List.dropWhile_map, same,
    ← List.map_reverse, trimLines]

end Trim

/-- What is read where the lines were written as a block. -/
def rereadLines (ls : List (List Char)) : List (List Char) :=
  trimLines (unindent ([] :: ls.map lineText))

theorem lineText_of_blank {line : List Char} (blank : isBlankLine (lineText line) = true) :
    lineText line = [] := by
  unfold lineText at blank ⊢
  split
  · rfl
  · rename_i solid
    rw [if_neg solid, isBlankLine_stripReturn] at blank
    exact absurd blank solid

theorem isBlankLine_closing (indent : Nat) :
    ∀ line ∈ lines (spaces indent), isBlankLine line = true := by
  rw [lines_of_not_mem (newline_not_mem_spaces indent)]
  intro line member
  split at member
  · cases member
  · rw [List.mem_singleton.mp member]
    refine List.all_eq_true.mpr fun c inside => ?_
    rw [List.eq_of_mem_replicate inside]
    decide

theorem blockValue_written (indent : Nat) {ls : List (List Char)}
    (inside : ∀ line ∈ ls, '\n' ∉ line) :
    blockValue ('\n' :: ls.flatMap (writeBlockLine (indent + 2)) ++ spaces indent) =
      ['\n'].intercalate (rereadLines ls) := by
  have content : lines ('\n' :: ls.flatMap (writeBlockLine (indent + 2)) ++ spaces indent) =
      [] :: ((ls.map lineText).map (indented (indent + 2)) ++ lines (spaces indent)) := by
    rw [List.cons_append, lines, lines_written _ inside, List.map_map]
    rfl
  have tail := isBlankLine_closing indent
  have dropped : ∀ common, ∀ line ∈ (lines (spaces indent)).map (dropIndent common),
      isBlankLine line = true := by
    intro common line member
    obtain ⟨closing, listed, rfl⟩ := List.mem_map.mp member
    exact isBlankLine_dropIndent common (tail closing listed)
  have lined : ((ls.map lineText).map (indented (indent + 2))).map
      (dropIndent ((commonIndent? (ls.map lineText)).map (indent + 2 + ·))) =
      ((ls.map lineText).map (dropIndent (commonIndent? (ls.map lineText)))).map escapeTriple := by
    rw [List.map_map (g := dropIndent _), List.map_map (g := escapeTriple)]
    refine List.map_congr_left fun text member => ?_
    obtain ⟨line, _, rfl⟩ := List.mem_map.mp member
    exact dropIndent_indented (indent + 2) member lineText_of_blank
  have start : [] :: ((ls.map lineText).map (dropIndent (commonIndent? (ls.map lineText)))).map
      escapeTriple = (unindent ([] :: ls.map lineText)).map escapeTriple := by
    rw [unindent_cons]
    rfl
  rw [blockValue, content, unindent_cons, commonIndent?_indented _ tail, List.map_append,
    ← List.cons_append, trimLines_append (dropped _), lined, start,
    trimLines_map isBlankLine_escapeTriple, List.map_map]
  have undone : unescapeTriple ∘ escapeTriple = id := funext unescapeTriple_escapeTriple
  rw [undone, List.map_id, rereadLines]

def isBlock (s : List Char) : Bool := s.contains '\n' && s.all fun c => isBreak c || isPlain c

def reread (s : List Char) : List Char :=
  if isBlock s then ['\n'].intercalate (rereadLines (lines s)) else s.flatMap rereadChar

theorem readString_block (indent : Nat) {ls : List (List Char)} (inside : ∀ line ∈ ls, '\n' ∉ line)
    (rest : List Char) :
    readString ('"' :: '"' :: '\n' :: ls.flatMap (writeBlockLine (indent + 2)) ++
      spaces indent ++ ['"', '"', '"'] ++ rest) =
      .ok (['\n'].intercalate (rereadLines ls), rest) := by
  have close : splitBlock ('"' :: '"' :: '"' :: rest) = .ok ([], rest) := rfl
  have content : splitBlock ('\n' :: ls.flatMap (writeBlockLine (indent + 2)) ++ spaces indent ++
      ['"', '"', '"'] ++ rest) =
      .ok ('\n' :: ls.flatMap (writeBlockLine (indent + 2)) ++ spaces indent, rest) := by
    simp only [List.cons_append, List.append_assoc, List.nil_append]
    rw [splitBlock_cons (by simp) (by simp), splitBlock_written, splitBlock_spaces, close]
    simp [following]
  simp only [List.cons_append] at content ⊢
  rw [readString, readBlock, content, ← blockValue_written indent inside]
  rfl

theorem readString_quoted (s : List Char) {rest : List Char} (behind : rest.head? ≠ some '"') :
    readString (s.flatMap writeEscaped ++ '"' :: rest) = .ok (s.flatMap rereadChar, rest) := by
  rw [← readQuoted_writeQuoted, readString.eq_def]
  split
  · rename_i shape
    cases s with
    | nil =>
      obtain ⟨_, rfl⟩ := List.cons.inj shape
      exact absurd rfl behind
    | cons c s =>
      obtain ⟨d, more, written, noQuote⟩ := head_writeEscaped c
      rw [List.flatMap_cons, written] at shape
      exact absurd (List.cons.inj shape).1 noQuote
  · rfl

/-- A literal is read to its end, wherever it stands, unless a quote comes right behind it. -/
theorem readString_writeString (indent : Nat) (s : List Char) {rest : List Char}
    (behind : rest.head? ≠ some '"') :
    ∃ body, writeString indent s = '"' :: body ∧
      readString (body ++ rest) = .ok (reread s, rest) := by
  by_cases block : isBlock s = true
  · refine ⟨'"' :: '"' :: '\n' ::
      (lines s).flatMap (writeBlockLine (indent + 2)) ++ spaces indent ++
      ['"', '"', '"'], if_pos block, ?_⟩
    rw [readString_block indent (newline_not_mem_lines s), reread, if_pos block]
  · refine ⟨s.flatMap writeEscaped ++ ['"'], if_neg block, ?_⟩
    rw [List.append_assoc, reread, if_neg block]
    exact readString_quoted s behind

end SchemaOverlay.Sdl

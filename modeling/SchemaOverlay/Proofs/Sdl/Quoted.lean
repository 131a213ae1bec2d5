import SchemaOverlay.Sdl.StringLiteral
import SchemaOverlay.Proofs.Text.Digits

/-!
A quoted string, written and read. Every quoted string that is written is read to its end. A
character is read as itself if it is written as it is, as one of the short escapes or as a code below
ten; from any other code the reader takes four decimal digits for a code in base 16, and the digits
behind them for text.
-/
namespace SchemaOverlay.Sdl

open Text

theorem following_nil (r : Except SyntaxError (List Char × List Char)) : following [] r = r := by
  cases r <;> rfl

theorem following_following (front inner : List Char)
    (r : Except SyntaxError (List Char × List Char)) :
    following front (following inner r) = following (front ++ inner) r := by
  cases r with
  | error e => rfl
  | ok p => simp [following]

/-- The characters that a quoted string gives back. -/
def isKept (c : Char) : Bool := isBreak c || isPlain c || decide (c.toNat < 10)

def codeOf (c : Char) : List Char := padLeft 4 (Nat.toDigits 10 c.toNat)

/-- What is read where the code of the character was written. -/
def rereadCode (c : Char) : List Char :=
  match codeOf c with
  | p :: q :: r :: s :: rest => ((hexNumber? [p, q, r, s]).bind charOfCode?).toList ++ rest
  | _ => []

def rereadChar (c : Char) : List Char := if isKept c then [c] else rereadCode c

theorem exists_codeOf (c : Char) :
    ∃ p q r s rest, codeOf c = p :: q :: r :: s :: rest ∧
      ∀ d ∈ p :: q :: r :: s :: rest, d.isDigit = true := by
  have digits : ∀ d ∈ codeOf c, d.isDigit = true := by
    intro d member
    rcases List.mem_append.mp member with zero | digit
    · rw [List.eq_of_mem_replicate zero]
      rfl
    · exact isDigit_of_mem_toDigits digit
  have long : 4 ≤ (codeOf c).length := by
    simp only [codeOf, padLeft, List.length_append, List.length_replicate]
    omega
  match shape : codeOf c with
  | p :: q :: r :: s :: rest => exact ⟨p, q, r, s, rest, rfl, shape ▸ digits⟩
  | [] | [_] | [_, _] | [_, _, _] =>
    rw [shape] at long
    simp at long

theorem hexNumber?_of_digits {p q r s : Char} (digits : ∀ c ∈ [p, q, r, s], c.isDigit = true) :
    hexNumber? [p, q, r, s] =
      some (((digitValue p * 16 + digitValue q) * 16 + digitValue r) * 16 + digitValue s) := by
  have noSign : p ≠ '+' := by
    rintro rfl
    exact absurd (digits _ List.mem_cons_self) (by decide)
  have values : ∀ c ∈ [p, q, r, s], hexDigit? c = some (digitValue c) := by
    intro c member
    rw [hexDigit?, if_pos (digits c member)]
  simp only [List.mem_cons, List.not_mem_nil, or_false, forall_eq_or_imp, forall_eq] at values
  obtain ⟨hp, hq, hr, hs⟩ := values
  simp [hexNumber?, noSign, hp, hq, hr, hs]

theorem charOfCode?_of_digits {p q r s : Char} (digits : ∀ c ∈ [p, q, r, s], c.isDigit = true) :
    ∃ x, (hexNumber? [p, q, r, s]).bind charOfCode? = some x ∧
      x.toNat = ((digitValue p * 16 + digitValue q) * 16 + digitValue r) * 16 + digitValue s := by
  rw [hexNumber?_of_digits digits, Option.bind_some]
  simp only [List.mem_cons, List.not_mem_nil, or_false, forall_eq_or_imp, forall_eq] at digits
  obtain ⟨hp, hq, hr, hs⟩ := digits
  have := digitValue_le hp
  have := digitValue_le hq
  have := digitValue_le hr
  have := digitValue_le hs
  have valid : Nat.isValidChar
      (((digitValue p * 16 + digitValue q) * 16 + digitValue r) * 16 + digitValue s) :=
    Or.inl (by omega)
  exact ⟨_, dif_pos valid, rfl⟩

theorem readQuoted_plain {c : Char} (quote : c ≠ '"') (backslash : c ≠ '\\') (lineEnd : c ≠ '\n')
    (rest : List Char) : readQuoted (c :: rest) = following [c] (readQuoted rest) := by
  rw [readQuoted.eq_def]
  split <;> simp_all

theorem readQuoted_digits {digits : List Char} (all : ∀ c ∈ digits, c.isDigit = true)
    (rest : List Char) : readQuoted (digits ++ rest) = following digits (readQuoted rest) := by
  induction digits with
  | nil => rw [List.nil_append, following_nil]
  | cons c digits ih =>
    have digit := all c List.mem_cons_self
    have other : ∀ d, d.isDigit = false → c ≠ d := by
      rintro d no rfl
      rw [digit] at no
      cases no
    rw [List.cons_append, readQuoted_plain (other _ rfl) (other _ rfl) (other _ rfl),
      ih fun d member => all d (List.mem_cons_of_mem _ member), following_following]
    rfl

theorem readQuoted_code {p q r s x : Char}
    (read : (hexNumber? [p, q, r, s]).bind charOfCode? = some x)
    (rest : List Char) :
    readQuoted ('\\' :: 'u' :: p :: q :: r :: s :: rest) = following [x] (readQuoted rest) := by
  rw [readQuoted, read]

theorem readQuoted_escape {c x : Char} (code : c ≠ 'u') (read : escape? c = some x)
    (rest : List Char) :
    readQuoted ('\\' :: c :: rest) = following [x] (readQuoted rest) := by
  rw [readQuoted.eq_def]
  split
  case h_7 _ _ _ _ _ escape _ shape =>
    obtain ⟨rfl, rfl⟩ := List.cons.inj shape
    exact absurd rfl (escape c rest rfl)
  all_goals simp_all

theorem readQuoted_codeOf (c : Char) (rest : List Char) :
    readQuoted ('\\' :: 'u' :: codeOf c ++ rest) = following (rereadCode c) (readQuoted rest) := by
  obtain ⟨p, q, r, s, more, code, digits⟩ := exists_codeOf c
  have four : ∀ d ∈ [p, q, r, s], d.isDigit = true := fun d member =>
    digits d (List.mem_append_left more member)
  obtain ⟨x, read, _⟩ := charOfCode?_of_digits four
  have others : ∀ d ∈ more, d.isDigit = true := fun d member =>
    digits d (List.mem_append_right [p, q, r, s] member)
  rw [rereadCode, code]
  simp only [List.cons_append]
  rw [readQuoted_code read, readQuoted_digits others, following_following, read]
  rfl

theorem rereadCode_of_lt {c : Char} (small : c.toNat < 10) : rereadCode c = [c] := by
  have one : codeOf c = ['0', '0', '0', c.toNat.digitChar] := by
    rw [codeOf, Nat.toDigits_of_lt_base small]
    rfl
  have value : ∀ n < 10, (hexNumber? ['0', '0', '0', n.digitChar]).bind charOfCode? =
      some (Char.ofNat n) := by
    decide
  rw [rereadCode, one]
  dsimp only
  rw [value c.toNat small, Char.ofNat_toNat]
  rfl

theorem writeEscaped_of_code {c : Char} (coded : isPlain c = false) (noBreak : isBreak c = false) :
    writeEscaped c = '\\' :: 'u' :: codeOf c := by
  unfold writeEscaped
  split
  · cases noBreak
  · cases noBreak
  · cases noBreak
  · cases coded
  · cases coded
  · rw [if_neg (by simp [coded]), codeOf, Nat.toString_eq_repr, Nat.toList_repr]

theorem readQuoted_writeEscaped (c : Char) (rest : List Char) :
    readQuoted (writeEscaped c ++ rest) = following (rereadChar c) (readQuoted rest) := by
  by_cases coded : isPlain c = false ∧ isBreak c = false
  · obtain ⟨coded, noBreak⟩ := coded
    have reread : rereadChar c = rereadCode c := by
      by_cases small : c.toNat < 10
      · rw [rereadChar, rereadCode_of_lt small, ite_self]
      · exact if_neg (by simp [isKept, coded, noBreak, small])
    rw [writeEscaped_of_code coded noBreak, readQuoted_codeOf, reread]
  · have kept : rereadChar c = [c] := by
      refine if_pos ?_
      cases plain : isPlain c <;> cases breaks : isBreak c <;> simp_all [isKept]
    rw [kept]
    unfold writeEscaped
    split
    · exact readQuoted_escape (by decide) rfl rest
    · exact readQuoted_escape (by decide) rfl rest
    · exact readQuoted_escape (by decide) rfl rest
    · exact readQuoted_escape (by decide) rfl rest
    · exact readQuoted_escape (by decide) rfl rest
    · rename_i carriage lineEnd tab quote backslash
      have plain : isPlain c = true := by
        by_contra unplain
        refine coded ⟨by simpa using unplain, ?_⟩
        simp only [isBreak, Bool.or_eq_false_iff, decide_eq_false_iff_not]
        exact ⟨⟨lineEnd, carriage⟩, tab⟩
      rw [if_pos plain]
      exact readQuoted_plain quote backslash lineEnd rest

theorem head_writeEscaped (c : Char) : ∃ d more, writeEscaped c = d :: more ∧ d ≠ '"' := by
  unfold writeEscaped
  split
  case h_6 =>
    split
    · exact ⟨c, [], rfl, ‹_›⟩
    · exact ⟨_, _, rfl, by decide⟩
  all_goals exact ⟨_, _, rfl, by decide⟩

theorem readQuoted_writeQuoted (s rest : List Char) :
    readQuoted (s.flatMap writeEscaped ++ '"' :: rest) = .ok (s.flatMap rereadChar, rest) := by
  induction s with
  | nil => rfl
  | cons c s ih =>
    rw [List.flatMap_cons, List.append_assoc, readQuoted_writeEscaped, ih, List.flatMap_cons]
    rfl

section Rewriting

def Apart (a b : List Char) : Prop := ¬ a <+: b ∧ ¬ b <+: a

instance (a b : List Char) : Decidable (Apart a b) := inferInstanceAs (Decidable (_ ∧ _))

theorem Apart.append_ne {a b : List Char} (apart : Apart a b) (x y : List Char) :
    a ++ x ≠ b ++ y := by
  intro same
  rcases List.prefix_or_prefix_of_prefix (List.prefix_append a x) (same ▸ List.prefix_append b y)
    with shorter | longer
  · exact apart.1 shorter
  · exact apart.2 longer

/-- The reader takes another character for the code, which is not written as the code is. -/
def Misread (c : Char) : Prop :=
  ∃ x more, rereadCode c = x :: more ∧ Apart (writeEscaped x) ('\\' :: 'u' :: codeOf c)

theorem misread_of_control {c : Char} (low : c.toNat < 32) (noBreak : isBreak c = false)
    (big : 10 ≤ c.toNat) : Misread c := by
  have all : ∀ n < 32, isBreak (Char.ofNat n) = false → 10 ≤ n →
      ((rereadCode (Char.ofNat n)).head?.any fun x =>
        Apart (writeEscaped x) ('\\' :: 'u' :: codeOf (Char.ofNat n))) = true := by
    decide +kernel
  have here := all c.toNat low
  rw [Char.ofNat_toNat] at here
  obtain ⟨x, head, apart⟩ := Option.any_eq_true _ _ |>.mp (here noBreak big)
  obtain ⟨more, shape⟩ := List.head?_eq_some_iff.mp head
  exact ⟨x, more, shape, of_decide_eq_true apart⟩

theorem head_codeOf {c : Char} (long : 1000 ≤ c.toNat) :
    ∃ head more, codeOf c = head :: more ∧ 1 ≤ digitValue head := by
  obtain ⟨head, more, shape, leads⟩ := head_toDigits (n := c.toNat / 10 / 10 / 10) (by omega)
  have long : codeOf c = head :: (more ++ [(c.toNat / 10 / 10 % 10).digitChar,
      (c.toNat / 10 % 10).digitChar, (c.toNat % 10).digitChar]) := by
    rw [codeOf, Nat.toDigits_of_base_le (n := c.toNat) (by omega) (by omega),
      Nat.toDigits_of_base_le (n := c.toNat / 10) (by omega) (by omega),
      Nat.toDigits_of_base_le (n := c.toNat / 10 / 10) (by omega) (by omega), shape]
    simp [padLeft]
  exact ⟨head, _, long, leads⟩

theorem misread_of_high {c : Char} (high : 0xFFFF < c.toNat) : Misread c := by
  obtain ⟨p, q, r, s, rest, code, digits⟩ := exists_codeOf c
  have four : ∀ d ∈ [p, q, r, s], d.isDigit = true := fun d member =>
    digits d (List.mem_append_left rest member)
  obtain ⟨x, read, value⟩ := charOfCode?_of_digits four
  have leading : 1 ≤ digitValue p := by
    obtain ⟨head, more, shape, leads⟩ := head_codeOf (c := c) (by omega)
    rw [shape] at code
    obtain rfl := (List.cons.inj code).1
    exact leads
  have bounds : ∀ d ∈ [p, q, r, s], digitValue d ≤ 9 := fun d member => digitValue_le (four d member)
  simp only [List.mem_cons, List.not_mem_nil, or_false, forall_eq_or_imp, forall_eq] at bounds
  have big : 0x1000 ≤ x.toNat := by omega
  have plain : isPlain x = true := by
    simp only [isPlain, Bool.and_eq_true, decide_eq_true_eq]
    omega
  refine ⟨x, rest, by rw [rereadCode, code]; simp [read], ?_⟩
  have written : writeEscaped x = [x] := by
    unfold writeEscaped
    split
    case h_6 => exact if_pos plain
    all_goals exact absurd big (by decide)
  have other : x ≠ '\\' := by
    rintro rfl
    exact absurd big (by decide)
  simp [written, Apart, other, Ne.symm other]

theorem exists_apart_of_lost {c : Char} (lost : isKept c = false) :
    ∃ x more, rereadChar c = x :: more ∧ Apart (writeEscaped x) (writeEscaped c) := by
  have reread : rereadChar c = rereadCode c := if_neg (by simp [lost])
  simp only [isKept, Bool.or_eq_false_iff, decide_eq_false_iff_not, Nat.not_lt] at lost
  obtain ⟨⟨noBreak, coded⟩, big⟩ := lost
  rw [reread, writeEscaped_of_code coded noBreak]
  rcases Nat.lt_or_ge c.toNat 32 with low | above
  · exact misread_of_control low noBreak big
  · refine misread_of_high ?_
    by_contra within
    simp [isPlain, above, Nat.not_lt.mp within] at coded

theorem writeQuoted_reread_iff (s : List Char) :
    (s.flatMap rereadChar).flatMap writeEscaped = s.flatMap writeEscaped ↔
      ∀ c ∈ s, isKept c = true := by
  induction s with
  | nil => simp
  | cons c s ih =>
    rw [List.forall_mem_cons, List.flatMap_cons, List.flatMap_append, List.flatMap_cons]
    cases kept : isKept c with
    | true =>
      have same : rereadChar c = [c] := if_pos kept
      rw [same, List.flatMap_singleton, List.append_cancel_left_eq, ih]
      simp
    | false =>
      obtain ⟨x, more, reread, apart⟩ := exists_apart_of_lost kept
      rw [reread, List.flatMap_cons, List.append_assoc]
      simp [apart.append_ne]

end Rewriting

end SchemaOverlay.Sdl

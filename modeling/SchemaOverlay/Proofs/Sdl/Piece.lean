import SchemaOverlay.Proofs.Sdl.Numeral
import SchemaOverlay.Proofs.Sdl.Steady

/-!
The pieces of a printed text, and how they are scanned. Each piece is read as it would be alone, as
long as a name, a number or a string has an edge behind it: a blank, a line end, a comma or a mark.
-/
namespace SchemaOverlay.Sdl

open Text

inductive Piece
  | gap (text : List Char)
  | mark (mark : Mark)
  | word (name : Name)
  | int (value : Int)
  | float (value : Binary64)
  | string (indent : Nat) (value : String)

def isNameText (cs : List Char) : Bool :=
  match cs with
  | [] => false
  | c :: rest => isNameStart c && rest.all isNameChar

def IsName (n : Name) : Prop := isNameText n.toList = true

instance (n : Name) : Decidable (IsName n) := inferInstanceAs (Decidable (_ = true))

namespace Piece

def text : Piece → List Char
  | .gap cs => cs
  | .mark m => [m.char]
  | .word n => n.toList
  | .int n => (toString n).toList
  | .float x => x.text.toList
  | .string indent s => writeString indent s.toList

def render (ps : List Piece) : List Char := ps.flatMap text

/-- The pieces that a reader of texts may have made. -/
def Formed : Piece → Prop
  | .gap cs => ∀ c ∈ cs, c = ' ' ∨ c = '\n' ∨ c = ','
  | .mark _ => True
  | .word n => IsName n
  | .int n => -2 ^ 63 ≤ n ∧ n < 2 ^ 63
  | .float x => x.magnitude.Canonical
  | .string .. => True

def Readable : Piece → Prop
  | .float x => x = ⟨false, .infinite⟩ ∨ x.magnitude.IsBelow (2 ^ 63)
  | _ => True

/-- The pieces that are written as they were, after they are read. -/
def Steady : Piece → Prop
  | .float x => ¬ x.IsNegativeZero
  | .string _ s => Sdl.Steady s.toList
  | _ => True

instance (p : Piece) : Decidable p.Readable :=
  match p with
  | .float _ => inferInstanceAs (Decidable (_ ∨ _))
  | .gap _ | .mark _ | .word _ | .int _ | .string .. => .isTrue trivial

instance (p : Piece) : Decidable p.Steady :=
  match p with
  | .float _ => inferInstanceAs (Decidable (¬ _))
  | .string .. => inferInstanceAs (Decidable (Sdl.Steady _))
  | .gap _ | .mark _ | .word _ | .int _ => .isTrue trivial

def ofToken : Token → Piece
  | .mark m => .mark m
  | .name n => .word n
  | .int n => .int n
  | .float x => .float x
  | .string s => .string 0 s

/-- The piece that is printed after this one is read. -/
def reread : Piece → Piece
  | .float x => (x.token?.map ofToken).getD (.float x)
  | .string indent s => .string indent (String.ofList (Sdl.reread s.toList))
  | p => p

def tokens : Piece → List Token
  | .gap _ => []
  | .mark m => [.mark m]
  | .word n => [.name n]
  | .int n => [.int n]
  | .float x => x.token?.toList
  | .string _ s => [.string (String.ofList (Sdl.reread s.toList))]

def isLoose : Piece → Bool
  | .gap _ | .mark _ => true
  | _ => false

end Piece

def startsEdge : List Piece → Bool → Bool
  | [], behind => behind
  | .gap [] :: ps, behind => startsEdge ps behind
  | p :: _, _ => p.isLoose

/-- Whether there is an edge behind each name, number and string. -/
def spaced : List Piece → Bool → Bool
  | [], _ => true
  | p :: ps, behind => (p.isLoose || startsEdge ps behind) && spaced ps behind

theorem startsEdge_of_solid {p : Piece} (solid : p.isLoose = false) (ps : List Piece)
    (behind : Bool) : startsEdge (p :: ps) behind = false := by
  cases p with
  | gap cs => cases solid
  | mark m => cases solid
  | _ => rfl

theorem startsEdge_append (ps qs : List Piece) (behind : Bool) :
    startsEdge (ps ++ qs) behind = startsEdge ps (startsEdge qs behind) := by
  induction ps with
  | nil => rfl
  | cons p ps ih =>
    by_cases empty : p = .gap []
    · subst empty
      exact ih
    · rw [List.cons_append, startsEdge, startsEdge]
      · exact empty
      · exact empty

theorem spaced_append (ps qs : List Piece) (behind : Bool) :
    spaced (ps ++ qs) behind = (spaced ps (startsEdge qs behind) && spaced qs behind) := by
  induction ps with
  | nil => rfl
  | cons p ps ih => rw [List.cons_append, spaced, startsEdge_append, ih, spaced, Bool.and_assoc]

def isEdge (c : Char) : Bool := c = ' ' || c = '\n' || c = ',' || (Mark.ofChar? c).isSome

def StartsEdge (cs : List Char) : Prop := ∀ c ∈ cs.head?, isEdge c = true

theorem ofChar?_eq_some {c : Char} {m : Mark} (read : Mark.ofChar? c = some m) : m.char = c := by
  simpa using List.find?_some read

theorem endsNumber_of_isEdge {c : Char} (edge : isEdge c = true) : endsNumber c = true := by
  unfold isEdge at edge
  unfold endsNumber
  simp only [Bool.or_eq_true, decide_eq_true_eq] at edge ⊢
  tauto

theorem not_isNameChar_of_isEdge {c : Char} (edge : isEdge c = true) : isNameChar c = false := by
  simp only [isEdge, Bool.or_eq_true, decide_eq_true_eq] at edge
  rcases edge with ((rfl | rfl) | rfl) | mark
  · decide
  · decide
  · decide
  · obtain ⟨m, read⟩ := Option.isSome_iff_exists.mp mark
    rw [← ofChar?_eq_some read]
    cases m <;> decide

theorem ne_quote_of_isEdge {c : Char} (edge : isEdge c = true) : c ≠ '"' := by
  rintro rfl
  exact absurd edge (by decide)

theorem ne_of_digit {c : Char} (digit : c.isDigit = true) (d : Char) (other : d.isDigit = false) :
    c ≠ d := by
  rintro rfl
  rw [digit] at other
  cases other

theorem not_endsNumber_of_digit {c : Char} (digit : c.isDigit = true) : endsNumber c = false := by
  have other := ne_of_digit digit
  have noMark : Mark.ofChar? c = none := by
    cases read : Mark.ofChar? c with
    | none => rfl
    | some m =>
      have same := ofChar?_eq_some read
      exact absurd same.symm (other m.char (by cases m <;> rfl))
  simp [endsNumber, noMark, other]

theorem not_isAlpha_of_outside {c : Char} (outside : c.toNat < 65 ∨ 122 < c.toNat) :
    c.isAlpha = false := by
  change c.val.toNat < 65 ∨ 122 < c.val.toNat at outside
  have noUpper : c.isUpper = false := by
    rw [Bool.eq_false_iff]
    intro upper
    have least : 65 ≤ c.val.toNat := UInt32.le_iff_toNat_le.mp (of_decide_eq_true upper).1
    have most : c.val.toNat ≤ 90 := UInt32.le_iff_toNat_le.mp (of_decide_eq_true upper).2
    omega
  have noLower : c.isLower = false := by
    rw [Bool.eq_false_iff]
    intro lower
    obtain ⟨first, last⟩ := Bool.and_eq_true_iff.mp lower
    have least : 97 ≤ c.val.toNat := UInt32.le_iff_toNat_le.mp (of_decide_eq_true first)
    have most : c.val.toNat ≤ 122 := UInt32.le_iff_toNat_le.mp (of_decide_eq_true last)
    omega
  exact Bool.or_eq_false_iff.mpr ⟨noUpper, noLower⟩

theorem bounds_of_digit {c : Char} (digit : c.isDigit = true) : 48 ≤ c.toNat ∧ c.toNat ≤ 57 := by
  obtain ⟨first, last⟩ := Bool.and_eq_true_iff.mp digit
  exact ⟨UInt32.le_iff_toNat_le.mp (of_decide_eq_true first),
    UInt32.le_iff_toNat_le.mp (of_decide_eq_true last)⟩

theorem not_isNameStart_of_digit {c : Char} (digit : c.isDigit = true) : isNameStart c = false := by
  have bounds := bounds_of_digit digit
  rw [isNameStart, not_isAlpha_of_outside (by omega),
    decide_eq_false (ne_of_digit digit '_' rfl)]
  rfl

section Scanning

theorem scan_eq (cs : List Char) :
    scan cs = match skipIgnored false cs with
      | [] => .ok []
      | c :: rest =>
        match readToken c rest with
        | .error e => .error e
        | .ok (t, rest) => (t :: ·) <$> scan rest := by
  rw [scan]
  split
  · rename_i none
    rw [none]
  · rename_i shape
    rw [shape]
    dsimp only
    split
    · rename_i failed
      rw [failed]
    · rename_i read
      rw [read]

theorem scan_of_isIgnored {c : Char} (ignored : isIgnored c = true) (rest : List Char) :
    scan (c :: rest) = scan rest := by
  have noComment : c ≠ '#' := by
    rintro rfl
    exact absurd ignored (by decide)
  rw [scan_eq, scan_eq rest, skipIgnored, if_neg Bool.false_ne_true, if_neg noComment,
    if_pos ignored]

/-- Text in front of other text that is read as one token, with nothing taken from behind. -/
def ReadsAs (cs behind : List Char) (t : Token) : Prop :=
  ∃ c body, cs = c :: body ∧ isIgnored c = false ∧ c ≠ '#' ∧
    readToken c (body ++ behind) = .ok (t, behind)

theorem scan_of_readsAs {cs behind : List Char} {t : Token} (reads : ReadsAs cs behind t) :
    scan (cs ++ behind) = (t :: ·) <$> scan behind := by
  obtain ⟨c, body, rfl, shown, noComment, read⟩ := reads
  rw [List.cons_append, scan_eq, skipIgnored, if_neg Bool.false_ne_true, if_neg noComment,
    if_neg (by simp [shown])]
  dsimp only
  rw [read]

theorem ReadsAs.cut {cs behind ds after : List Char} {t u : Token} (reads : ReadsAs cs behind t)
    (reads' : ReadsAs ds after u) (same : cs ++ behind = ds ++ after) :
    cs = ds ∧ behind = after := by
  obtain ⟨c, body, rfl, _, _, read⟩ := reads
  obtain ⟨d, more, rfl, _, _, read'⟩ := reads'
  rw [List.cons_append, List.cons_append, List.cons.injEq] at same
  obtain ⟨rfl, same⟩ := same
  rw [same, read'] at read
  cases read
  exact ⟨by rw [List.append_cancel_right same], rfl⟩

theorem scan_of_unreadable {c : Char} {rest : List Char} {e : SyntaxError}
    (shown : isIgnored c = false) (noComment : c ≠ '#') (read : readToken c rest = .error e) :
    scan (c :: rest) = .error e := by
  rw [scan_eq, skipIgnored, if_neg Bool.false_ne_true, if_neg noComment, if_neg (by simp [shown])]
  dsimp only
  rw [read]

theorem readToken_number {c : Char} {rest behind : List Char} (first : c = '-' ∨ c.isDigit = true)
    (inside : ∀ d ∈ rest, endsNumber d = false) (edge : StartsEdge behind) :
    readToken c (rest ++ behind) =
      match numeral? (c :: rest) with
      | some token => .ok (token, behind)
      | none => .error (.badNumber (String.ofList (c :: rest))) := by
  have inside' : ∀ d ∈ rest, (!endsNumber d) = true := fun d member => by rw [inside d member]; rfl
  have front : (rest ++ behind).takeWhile (!endsNumber ·) = rest := by
    rw [List.takeWhile_append_of_pos inside']
    cases behind with
    | nil => simp
    | cons d behind => simp [endsNumber_of_isEdge (edge d rfl)]
  have back : (rest ++ behind).dropWhile (!endsNumber ·) = behind := by
    rw [List.dropWhile_append_of_pos inside']
    cases behind with
    | nil => rfl
    | cons d behind => simp [endsNumber_of_isEdge (edge d rfl)]
  have noMark : Mark.ofChar? c = none := by
    rcases first with rfl | digit
    · decide
    · have plain := not_endsNumber_of_digit digit
      simp only [endsNumber, Bool.or_eq_false_iff, Option.isSome_eq_false_iff,
        Option.isNone_iff_eq_none] at plain
      exact plain.2
  have noName : isNameStart c = false := by
    rcases first with rfl | digit
    · decide
    · exact not_isNameStart_of_digit digit
  rw [readToken, noMark]
  dsimp only
  rw [if_neg (by simp [noName]), if_pos (by simpa using first), front]
  cases numeral? (c :: rest) with
  | none => rfl
  | some token => exact congrArg (fun r => Except.ok (token, r)) back

theorem readToken_word {c : Char} {rest behind : List Char} (first : isNameStart c = true)
    (inside : ∀ d ∈ rest, isNameChar d = true) (edge : StartsEdge behind) :
    readToken c (rest ++ behind) = .ok (.name (String.ofList (c :: rest)), behind) := by
  have front : (rest ++ behind).takeWhile isNameChar = rest := by
    rw [List.takeWhile_append_of_pos inside]
    cases behind with
    | nil => simp
    | cons d behind => simp [not_isNameChar_of_isEdge (edge d rfl)]
  have back : (rest ++ behind).dropWhile isNameChar = behind := by
    rw [List.dropWhile_append_of_pos inside]
    cases behind with
    | nil => rfl
    | cons d behind => simp [not_isNameChar_of_isEdge (edge d rfl)]
  have noMark : Mark.ofChar? c = none := by
    cases read : Mark.ofChar? c with
    | none => rfl
    | some m =>
      rw [← ofChar?_eq_some read] at first
      cases m <;> cases first
  rw [readToken, noMark]
  dsimp only
  rw [if_pos first, front, back]

theorem readsAs_string (indent : Nat) (s : List Char) {behind : List Char}
    (edge : StartsEdge behind) :
    ReadsAs (writeString indent s) behind (.string (String.ofList (reread s))) := by
  have noQuote : behind.head? ≠ some '"' := fun head => ne_quote_of_isEdge (edge _ head) rfl
  obtain ⟨body, written, read⟩ := readString_writeString indent s noQuote
  refine ⟨'"', body, written, by decide, by decide, ?_⟩
  have noMark : Mark.ofChar? '"' = none := by decide
  have noName : isNameStart '"' = false := by decide
  rw [readToken, noMark]
  dsimp only
  rw [noName, read]
  rfl

theorem shown_of_number {c : Char} (first : c = '-' ∨ c.isDigit = true) :
    isIgnored c = false ∧ c ≠ '#' := by
  rcases first with rfl | digit
  · decide
  · have other := ne_of_digit digit
    exact ⟨by simp [isIgnored, other], other '#' rfl⟩

end Scanning

def IsNumberText (cs : List Char) : Prop :=
  ∃ c rest, cs = c :: rest ∧ (c = '-' ∨ c.isDigit = true) ∧ ∀ d ∈ rest, endsNumber d = false

theorem isNumberText_of_digits {cs : List Char} {c : Char} {rest : List Char}
    (shape : cs = c :: rest)
    (first : c.isDigit = true) (behind : ∀ d ∈ rest, d.isDigit = true ∨ d = '.') :
    IsNumberText cs ∧ IsNumberText ('-' :: cs) := by
  have inside : ∀ d, d.isDigit = true ∨ d = '.' → endsNumber d = false := by
    rintro d (digit | rfl)
    · exact not_endsNumber_of_digit digit
    · decide
  have behind' : ∀ d ∈ rest, endsNumber d = false := fun d member => inside d (behind d member)
  refine ⟨⟨c, rest, shape, .inr first, behind'⟩, '-', cs, rfl, .inl rfl, ?_⟩
  rw [shape, List.forall_mem_cons]
  exact ⟨inside c (.inl first), behind'⟩

theorem isNumberText_toString (n : Int) : IsNumberText (toString n).toList := by
  have digits : ∀ k,
      IsNumberText (Nat.toDigits 10 k) ∧ IsNumberText ('-' :: Nat.toDigits 10 k) := by
    intro k
    obtain ⟨c, rest, shape, digit⟩ := head_toDigits_isDigit k
    refine isNumberText_of_digits shape digit fun d member => .inl ?_
    exact isDigit_of_mem_toDigits (n := k) (by simp [shape, member])
  rcases le_or_gt 0 n with whole | negative
  · obtain ⟨k, rfl⟩ := Int.eq_ofNat_of_zero_le whole
    rw [toList_toString_ofNat]
    exact (digits k).1
  · obtain ⟨k, rfl⟩ : ∃ k : Nat, n = -k := ⟨(-n).toNat, by omega⟩
    rw [toList_toString_neg (by omega)]
    exact (digits k).2

theorem isNumberText_text {x : Binary64} (canonical : x.magnitude.Canonical)
    (known : x ≠ ⟨false, .infinite⟩) : IsNumberText x.text.toList := by
  obtain ⟨negative, magnitude⟩ := x
  have signed : (⟨true, magnitude⟩ : Binary64).text.toList = '-' :: magnitude.text.toList :=
    String.toList_append
  by_cases finite : magnitude = .infinite
  · subst finite
    cases negative with
    | false => exact absurd rfl known
    | true =>
      have inside : ['i', 'n', 'f'].all (!endsNumber ·) = true := by decide
      exact ⟨'-', ['i', 'n', 'f'], rfl, .inl rfl, fun d member => by
        simpa only [Bool.not_eq_true'] using List.all_eq_true.mp inside d member⟩
  · obtain ⟨c, rest, shape, digit, behind⟩ := Binary64.text_of_finite canonical finite
    cases negative with
    | false => exact (isNumberText_of_digits shape digit behind).1
    | true =>
      rw [signed]
      exact (isNumberText_of_digits shape digit behind).2

theorem readsAs_word {n : Name} (formed : IsName n) {behind : List Char}
    (edge : StartsEdge behind) :
    ReadsAs n.toList behind (.name n) := by
  unfold IsName isNameText at formed
  cases shape : n.toList with
  | nil =>
    rw [shape] at formed
    cases formed
  | cons c rest =>
    rw [shape] at formed
    dsimp only at formed
    rw [Bool.and_eq_true, List.all_eq_true] at formed
    have whole : n = String.ofList (c :: rest) := by rw [← shape, String.ofList_toList]
    rw [whole]
    refine ⟨c, rest, rfl, ?_, ?_, readToken_word formed.1 formed.2 edge⟩
    · rw [Bool.eq_false_iff]
      intro ignored
      simp only [isIgnored, Bool.or_eq_true, decide_eq_true_eq] at ignored
      rcases ignored with ((((rfl | rfl) | rfl) | rfl) | rfl) | rfl <;>
        exact absurd formed.1 (by decide)
    · rintro rfl
      exact absurd formed.1 (by decide)

theorem IsNumberText.readsAs {cs : List Char} (number : IsNumberText cs) {behind : List Char}
    (edge : StartsEdge behind) {t : Token} (known : numeral? cs = some t) :
    ReadsAs cs behind t := by
  obtain ⟨c, rest, rfl, first, inside⟩ := number
  have read := readToken_number first inside edge
  rw [known] at read
  exact ⟨c, rest, rfl, (shown_of_number first).1, (shown_of_number first).2, read⟩

theorem IsNumberText.scan_error {cs : List Char} (number : IsNumberText cs) {behind : List Char}
    (edge : StartsEdge behind) (unknown : numeral? cs = none) :
    ∃ e, scan (cs ++ behind) = .error e := by
  obtain ⟨c, rest, rfl, first, inside⟩ := number
  have read := readToken_number first inside edge
  rw [unknown] at read
  exact ⟨_, scan_of_unreadable (shown_of_number first).1 (shown_of_number first).2 read⟩

namespace Piece

variable {p : Piece} (formed : p.Formed) {behind : List Char}

include formed

theorem readsAs (readable : p.Readable) (solid : p.isLoose = false) (edge : StartsEdge behind) :
    ∃ t, p.tokens = [t] ∧ ReadsAs p.text behind t := by
  cases p with
  | gap cs => cases solid
  | mark m => cases solid
  | word n => exact ⟨_, rfl, readsAs_word formed edge⟩
  | int n =>
    have fits : intToken? n = some (.int n) := by
      obtain ⟨t, read⟩ := Option.isSome_iff_exists.mp (intToken?_isSome.mpr formed)
      rw [read, eq_of_intToken? read]
    exact ⟨_, rfl, (isNumberText_toString n).readsAs edge (numeral?_toString n ▸ fits)⟩
  | float x =>
    obtain ⟨t, read⟩ := Option.isSome_iff_exists.mp
      ((Binary64.token?_isSome_iff formed).mpr readable)
    refine ⟨t, by rw [tokens, read]; rfl, ?_⟩
    by_cases known : x = ⟨false, .infinite⟩
    · subst known
      cases read
      exact readsAs_word (n := "inf") rfl edge
    · exact (isNumberText_text formed known).readsAs edge
        ((Binary64.numeral?_text formed known).trans read)
  | string indent s => exact ⟨_, rfl, readsAs_string indent s.toList edge⟩

theorem scan_text (readable : p.Readable) (before : p.isLoose = true ∨ StartsEdge behind) :
    scan (p.text ++ behind) = (p.tokens ++ ·) <$> scan behind := by
  cases loose : p.isLoose with
  | false =>
    obtain ⟨t, tokens, reads⟩ := readsAs formed readable loose
      (before.resolve_left (by simp [loose]))
    rw [tokens]
    exact scan_of_readsAs reads
  | true =>
    cases p with
    | gap cs =>
      have nothing : ∀ r : Except SyntaxError (List Token),
          ((Piece.gap cs).tokens ++ ·) <$> r = r := by
        rintro (e | ts) <;> rfl
      rw [nothing]
      induction cs with
      | nil => rfl
      | cons c cs ih =>
        rw [Formed, List.forall_mem_cons] at formed
        have ignored : isIgnored c = true := by
          rcases formed.1 with rfl | rfl | rfl <;> decide
        exact (scan_of_isIgnored ignored _).trans (ih formed.2 trivial (.inl rfl) rfl (by
          rintro (e | ts) <;> rfl))
    | mark m =>
      have read : readToken m.char ([] ++ behind) = .ok (.mark m, behind) := by
        rw [List.nil_append, readToken, Mark.ofChar?_char]
      exact scan_of_readsAs ⟨m.char, [], rfl, by cases m <;> decide, by cases m <;> decide, read⟩
    | _ => cases loose

theorem scan_text_unreadable (unreadable : ¬ p.Readable)
    (before : p.isLoose = true ∨ StartsEdge behind) : ∃ e, scan (p.text ++ behind) = .error e := by
  cases p with
  | float x =>
    have edge := before.resolve_left Bool.false_ne_true
    have known : x ≠ ⟨false, .infinite⟩ := fun same => unreadable (.inl same)
    have unknown : x.token? = none := by
      rw [← Option.not_isSome_iff_eq_none, Binary64.token?_isSome_iff formed]
      exact unreadable
    exact (isNumberText_text formed known).scan_error edge
      ((Binary64.numeral?_text formed known).trans unknown)
  | _ => exact absurd trivial unreadable

end Piece

theorem token?_cases {x : Binary64} {t : Token} (read : x.token? = some t) :
    t = .float x ∨ (∃ n, t = .int n ∧ -2 ^ 63 ≤ n ∧ n < 2 ^ 63) ∨
      t = .name "inf" ∧ x = ⟨false, .infinite⟩ := by
  have whole : ∀ {n : Int}, intToken? n = some t → ∃ n, t = .int n ∧ -2 ^ 63 ≤ n ∧ n < 2 ^ 63 :=
    fun known => ⟨_, eq_of_intToken? known,
      intToken?_isSome.mp (Option.isSome_iff_exists.mpr ⟨_, known⟩)⟩
  obtain ⟨negative, magnitude⟩ := x
  cases magnitude with
  | infinite =>
    cases negative with
    | false =>
      cases read
      exact .inr (.inr ⟨rfl, rfl⟩)
    | true => cases read
  | finite m e =>
    rw [Binary64.token?] at read
    dsimp only at read
    split at read
    · cases read
      exact .inr (.inl ⟨0, rfl, by norm_num⟩)
    · split at read
      · exact .inr (.inl (whole read))
      · cases read
        exact .inl rfl

namespace Piece

variable {p : Piece} (formed : p.Formed)

include formed

theorem formed_reread : p.reread.Formed := by
  cases p with
  | float x =>
    cases read : x.token? with
    | none =>
      rw [reread, read]
      exact formed
    | some t =>
      rw [reread, read]
      rcases token?_cases read with rfl | ⟨n, rfl, bounds⟩ | ⟨rfl, _⟩
      · exact formed
      · exact bounds
      · exact show IsName "inf" by decide
  | string indent s => exact trivial
  | _ => exact formed

theorem readable_reread (readable : p.Readable) : p.reread.Readable := by
  cases p with
  | float x =>
    obtain ⟨t, read⟩ := Option.isSome_iff_exists.mp
      ((Binary64.token?_isSome_iff formed).mpr readable)
    rw [reread, read]
    rcases token?_cases read with rfl | ⟨n, rfl, _⟩ | ⟨rfl, _⟩
    · exact readable
    · exact trivial
    · exact trivial
  | _ => exact trivial

omit formed in
theorem isLoose_reread : p.reread.isLoose = p.isLoose := by
  cases p with
  | float x =>
    cases read : x.token? with
    | none =>
      rw [reread, read]
      rfl
    | some t =>
      rw [reread, read]
      rcases token?_cases read with rfl | ⟨n, rfl, _⟩ | ⟨rfl, _⟩ <;> rfl
  | _ => rfl

theorem text_reread_iff (readable : p.Readable) : p.reread.text = p.text ↔ p.Steady := by
  cases p with
  | float x =>
    obtain ⟨t, read⟩ := Option.isSome_iff_exists.mp
      ((Binary64.token?_isSome_iff formed).mpr readable)
    rw [reread, read]
    rcases token?_cases read with rfl | ⟨n, rfl, _⟩ | ⟨rfl, rfl⟩
    · refine iff_of_true rfl ?_
      rintro ⟨_, e, zero⟩
      rw [Binary64.token?, zero] at read
      cases read
    · exact String.toList_inj.trans (Binary64.text_of_token?_int formed read)
    · refine iff_of_true rfl ?_
      rintro ⟨negative, _⟩
      cases negative
  | string indent s =>
    rw [reread, text, text, String.toList_ofList]
    exact writeString_reread_iff indent s.toList
  | _ => exact iff_of_true rfl trivial

end Piece

def lex (ps : List Piece) : List Token := ps.flatMap Piece.tokens

open Piece (render)

theorem startsEdge_reread (ps : List Piece) (behind : Bool) :
    startsEdge (ps.map Piece.reread) behind = startsEdge ps behind := by
  induction ps with
  | nil => rfl
  | cons p ps ih =>
    cases p with
    | gap cs =>
      cases cs with
      | nil => exact ih
      | cons c cs => rfl
    | float x =>
      exact (startsEdge_of_solid (Piece.isLoose_reread (p := .float x)) _ _).trans
        (startsEdge_of_solid (p := .float x) rfl _ _).symm
    | _ => rfl

section Rendering

variable {ps : List Piece} (formed : ∀ p ∈ ps, p.Formed) {edge : Bool} {behind : List Char}
  (ends : edge = true → StartsEdge behind)

include formed ends

theorem startsEdge_render (starts : startsEdge ps edge = true) :
    StartsEdge (render ps ++ behind) := by
  induction ps with
  | nil => exact ends starts
  | cons p ps ih =>
    rw [List.forall_mem_cons] at formed
    cases p with
    | gap cs =>
      cases cs with
      | nil => exact ih formed.2 starts
      | cons c cs =>
        rintro d head
        obtain rfl := Option.some.inj head
        rcases formed.1 _ List.mem_cons_self with rfl | rfl | rfl <;> decide
    | mark m =>
      rintro d head
      obtain rfl := Option.some.inj head
      cases m <;> decide
    | word n => cases starts
    | int n => cases starts
    | float x => cases starts
    | string indent s => cases starts

theorem scan_render (readable : ∀ p ∈ ps, p.Readable) (apart : spaced ps edge = true) :
    scan (render ps ++ behind) = (lex ps ++ ·) <$> scan behind := by
  induction ps with
  | nil => cases read : scan behind <;> simp [Piece.render, lex, read]
  | cons p ps ih =>
    rw [spaced, Bool.and_eq_true, Bool.or_eq_true] at apart
    rw [List.forall_mem_cons] at formed readable
    have before : p.isLoose = true ∨ StartsEdge (render ps ++ behind) :=
      apart.1.imp_right (startsEdge_render formed.2 ends)
    have first : render (p :: ps) ++ behind = p.text ++ (render ps ++ behind) :=
      List.append_assoc ..
    rw [first, Piece.scan_text formed.1 readable.1 before, ih formed.2 readable.2 apart.2]
    cases scan behind <;> simp [lex]

theorem scan_render_unreadable (unreadable : ∃ p ∈ ps, ¬ p.Readable)
    (apart : spaced ps edge = true) : ∃ e, scan (render ps ++ behind) = .error e := by
  induction ps with
  | nil => simp at unreadable
  | cons p ps ih =>
    rw [spaced, Bool.and_eq_true, Bool.or_eq_true] at apart
    rw [List.forall_mem_cons] at formed
    have before : p.isLoose = true ∨ StartsEdge (render ps ++ behind) :=
      apart.1.imp_right (startsEdge_render formed.2 ends)
    have first : render (p :: ps) ++ behind = p.text ++ (render ps ++ behind) :=
      List.append_assoc ..
    rw [first]
    by_cases readable : p.Readable
    · have later : ∃ q ∈ ps, ¬ q.Readable := by
        obtain ⟨q, member, no⟩ := unreadable
        rcases List.mem_cons.mp member with rfl | member
        · exact absurd readable no
        · exact ⟨q, member, no⟩
      obtain ⟨e, failed⟩ := ih formed.2 later apart.2
      rw [Piece.scan_text formed.1 readable before, failed]
      exact ⟨e, rfl⟩
    · exact Piece.scan_text_unreadable formed.1 readable before

end Rendering

/-- Pieces that are read are written as they were exactly if each of them is. -/
theorem render_reread_iff {ps : List Piece} (formed : ∀ p ∈ ps, p.Formed)
    (readable : ∀ p ∈ ps, p.Readable) (apart : spaced ps true = true) :
    render (ps.map Piece.reread) = render ps ↔ ∀ p ∈ ps, p.Steady := by
  induction ps with
  | nil => simp [Piece.render]
  | cons p ps ih =>
    rw [spaced, Bool.and_eq_true, Bool.or_eq_true] at apart
    rw [List.forall_mem_cons] at formed readable
    rw [List.forall_mem_cons, ← ih formed.2 readable.2 apart.2,
      ← Piece.text_reread_iff formed.1 readable.1]
    have first : ∀ q qs, render (q :: qs) = q.text ++ render qs := fun q qs => rfl
    rw [List.map_cons, first, first]
    constructor
    · intro same
      cases loose : p.isLoose with
      | true =>
        have kept : p.reread = p := by cases p <;> first | rfl | cases loose
        rw [kept] at same ⊢
        exact ⟨rfl, List.append_cancel_left same⟩
      | false =>
        have edge := apart.1.resolve_left (by simp [loose])
        have edge' : startsEdge (ps.map Piece.reread) true = true := by rwa [startsEdge_reread]
        have formed' : ∀ q ∈ ps.map Piece.reread, q.Formed := by
          rw [List.forall_mem_map]
          exact fun q member => Piece.formed_reread (formed.2 q member)
        have nothing : true = true → StartsEdge [] := fun _ _ head => nomatch head
        have start := startsEdge_render formed.2 nothing edge
        have start' := startsEdge_render formed' nothing edge'
        rw [List.append_nil] at start start'
        -- Reading ends where the text of the piece does, whichever text is behind it.
        obtain ⟨t, _, reads⟩ := Piece.readsAs formed.1 readable.1 loose start
        obtain ⟨u, _, reads'⟩ := Piece.readsAs (Piece.formed_reread formed.1)
          (Piece.readable_reread formed.1 readable.1) (Piece.isLoose_reread.trans loose) start'
        exact reads'.cut reads same
    · rintro ⟨text, rest⟩
      rw [text, rest]

end SchemaOverlay.Sdl

import SchemaOverlay.Proofs.Sdl.Piece
import SchemaOverlay.Sdl.Parser
import SchemaOverlay.Text.Basic

/-!
Blank texts are no documents. White space in the wide sense is passed over by the scanner or begins no
token, so what is left of a blank text is an error or nothing at all.
-/
namespace SchemaOverlay.Sdl

open Text

theorem outside_of_isWhite {c : Char} (white : isWhite c = true) : c.toNat < 33 ∨ 126 < c.toNat := by
  simp only [isWhite, Bool.or_eq_true, Bool.and_eq_true, decide_eq_true_eq, beq_iff_eq] at white
  omega

theorem ne_of_isWhite {c d : Char} (white : isWhite c = true) (visible : isWhite d = false) :
    c ≠ d := by
  rintro rfl
  rw [white] at visible
  cases visible

theorem readToken_white {c : Char} (white : isWhite c = true) (rest : List Char) :
    readToken c rest = .error (.strayCharacter c) := by
  have outside := outside_of_isWhite white
  have noMark : Mark.ofChar? c = none := by
    cases found : Mark.ofChar? c with
    | none => rfl
    | some m =>
      obtain rfl := ofChar?_eq_some found
      exact absurd white (by cases m <;> decide)
  have noDigit : c.isDigit = false := by
    rw [Bool.eq_false_iff]
    intro digit
    have bounds := bounds_of_digit digit
    omega
  have noName : isNameStart c = false := by
    rw [isNameStart, not_isAlpha_of_outside (by omega),
      decide_eq_false (ne_of_isWhite white rfl)]
    rfl
  unfold readToken
  rw [noMark, noName, noDigit]
  simp [ne_of_isWhite white (d := '-') rfl, ne_of_isWhite white (d := '"') rfl]

theorem scan_white {cs : List Char} (white : ∀ c ∈ cs, isWhite c = true) :
    scan cs = .ok [] ∨ ∃ c, scan cs = .error (.strayCharacter c) := by
  induction cs with
  | nil => exact Or.inl (scan_eq [])
  | cons c rest ih =>
    rw [List.forall_mem_cons] at white
    by_cases ignored : isIgnored c = true
    · rw [scan_of_isIgnored ignored]
      exact ih white.2
    · exact Or.inr ⟨c, scan_of_unreadable (Bool.eq_false_iff.mpr ignored)
        (ne_of_isWhite white.1 rfl) (readToken_white white.1 rest)⟩

/-- A blank text is no document. -/
theorem parse_blank {text : String} (blank : isBlank text = true) :
    ∃ e, Document.parse text = .error e := by
  rw [isBlank, List.all_eq_true] at blank
  unfold Document.parse
  rcases scan_white blank with nothing | ⟨c, stray⟩
  · rw [nothing]
    exact ⟨.endOfText, rfl⟩
  · rw [stray]
    exact ⟨.strayCharacter c, rfl⟩

end SchemaOverlay.Sdl

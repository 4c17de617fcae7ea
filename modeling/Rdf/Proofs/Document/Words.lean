import Rdf.Proofs.Document.LocalParts
import Rdf.Proofs.Token.Forms
import Rdf.Proofs.Token.Gaps
import Rdf.Proofs.Token.Numerals
import Rdf.Turtle.Printer
import Rdf.Turtle.Reader

/-!
Which texts are labels and which are numbers.

The printers ask whether a label can be written and whether a number needs no quotes. They are told
so exactly where the scanner reads what is written as one lexeme, up to the end of the text.
-/

namespace Rdf

open Text Scan

variable {text : List Char} {lexemes : List Lexeme}

/-! ### Texts of one lexeme -/

theorem lexemes?_eq_some_iff : lexemes? text = some lexemes ↔ Lexes false text lexemes := by
  rw [lexemes?, Token.scanAll, String.toList_ofList]
  constructor
  · intro h
    split at h
    · next hfault => exact Option.some.inj h ▸ Lexes.of_scanFrom hfault
    · cases h
  · intro h
    obtain ⟨tokens, hscan, rfl⟩ := h.scanFrom .start
    rw [hscan]
    rfl

/-- What is spelt reads as it where nothing stands behind it. -/
theorem Spells.lexemes?_eq (h : Spells text lexemes) :
    lexemes? text = some (lexemes ++ [.eof]) := by
  have hend : AtSeparator [] := by simp [AtSeparator]
  have hreads := h hend Reads.nil
  rw [List.append_nil] at hreads
  exact lexemes?_of_reads hreads

theorem Lexes.legible {afterString : Bool} {l : Lexeme} {later : List Lexeme}
    (h : Lexes afterString text (l :: later)) : l.Legible := by
  cases h with
  | eof => trivial
  | cons _ hscan _ => exact Lexeme.legible_of_scan hscan

theorem firstLexeme?_of_scan {c : Char} {rest left : List Char} {l : Lexeme}
    (hskip : skipLayout false (c :: rest) = c :: rest)
    (hscan : Lexeme.scan false (c :: rest) = .ok (l, left)) :
    firstLexeme? (c :: rest) = some l := by
  rw [firstLexeme?, Token.scanAll, String.toList_ofList, Token.scanFrom_of_ok hskip hscan]
  rfl

/-! ### Labels -/

/-- A label can be written if and only if it is read as itself: the one of a blank node behind its
mark, and the one of a namespace in front of a colon. -/
theorem labels_scan (label : String) :
    (isBlankLabel label.toList = true ↔
      lexemes? ('_' :: ':' :: label.toList) = some [.blank label, .eof]) ∧
    (isSpaceLabel label.toList = true ↔
      lexemes? (label.toList ++ [':']) = some [.name label "", .eof]) := by
  refine ⟨⟨fun h => (Spells.blank h).lexemes?_eq, fun h => ?_⟩,
    ⟨fun h => (Spells.name h rfl).lexemes?_eq, fun h => ?_⟩⟩
  · exact (lexemes?_eq_some_iff.1 h).legible
  · exact (lexemes?_eq_some_iff.1 h).legible

/-- Dots at the end, layout and comments are no part of a label. -/
example : ["a.b", "a.", "a ", " a", "a#b", "", "1"].map (fun label => isBlankLabel label.toList) =
    [true, false, false, false, false, false, true] := by decide

/-! ### Numbers -/

namespace Lexeme

variable {afterString : Bool} {c : Char} {rest left : List Char} {n : NumberKind} {value : String}

theorem scanAtWord_ne_number : scanAtWord afterString rest ≠ .ok (.number n value, left) := by
  intro h
  simp only [scanAtWord, fail] at h
  repeat' split at h
  all_goals simp at h

theorem keyword?_ne_number {label : List Char} : keyword? label ≠ some (.number n value) := by
  intro h
  simp only [keyword?] at h
  repeat' split at h
  all_goals simp at h

theorem scanName_ne_number : scanName rest ≠ .ok (.number n value, left) := by
  rw [Ne, scanName_eq_ok_iff]
  rintro ⟨label, behind, -, ⟨-, -, h⟩ | ⟨_, _, -, -, -, h⟩ | ⟨-, -, h⟩⟩
  · cases h
  · cases h
  · exact keyword?_ne_number h

/-- Numbers are read where they start, and nowhere else. -/
theorem scanNumber_of_scan (h : scan afterString (c :: rest) = .ok (.number n value, left)) :
    scanNumber (c :: rest) = .ok (.number n value, left) := by
  by_cases hstart : startsNumber (c :: rest) = true
  · rwa [scan_of_startsNumber hstart] at h
  · simp only [scan, if_neg hstart] at h
    split at h
    · split at h <;> simp at h
    split at h
    · split at h <;> simp at h
    split at h
    · exact (scanAtWord_ne_number h).elim
    split at h
    · split at h <;> simp [fail] at h
    split at h
    · split at h <;> simp at h
    split at h
    · simp at h
    split at h
    · exact (scanName_ne_number h).elim
    · simp [fail] at h

theorem taken_of_scanNumber (h : scanNumber text = .ok (.number n value, left)) :
    Pattern.ofKind n text = some (value.toList, left) := by
  have hkind : ∀ {m : NumberKind}, scanNumberAs m text = some (.number n value, left) →
      Pattern.ofKind n text = some (value.toList, left) := by
    intro m hm
    obtain ⟨taken, htaken, -, hl⟩ := scanNumberAs_eq_some_iff.1 hm
    obtain ⟨rfl, rfl⟩ := Lexeme.number.inj hl
    rwa [String.toList_ofList]
  obtain h | ⟨-, h | ⟨-, h⟩⟩ := scanNumber_eq_ok_iff.1 h
  · exact hkind h
  · exact hkind h
  · exact hkind h

end Lexeme

variable {n : NumberKind} {value : String}

/-- A text whose first lexeme is a number with the whole text as its value fits the notation. -/
theorem Lexes.fits {later : List Lexeme} (h : Lexes false value.toList (.number n value :: later)) :
    Pattern.fits (.ofKind n) value.toList = true := by
  cases h with
  | @cons _ _ rest left c _ _ hskip hscan _ =>
    have htaken := Lexeme.taken_of_scanNumber (Lexeme.scanNumber_of_scan hscan)
    have hexact := Pattern.exact_ofKind n htaken
    -- no character is left in front of the number or behind it
    have hwhole : c :: rest = value.toList := by
      refine (hskip ▸ skipLayout_suffix false value.toList).eq_of_length_le ?_
      rw [← hexact, List.length_append]
      omega
    rw [hwhole] at htaken hexact
    obtain rfl : left = [] := List.append_right_eq_self.1 hexact
    exact (Pattern.fits_iff (Pattern.exact_ofKind n)).2 htaken

theorem firstLexeme?_number (h : Pattern.fits (.ofKind n) value.toList = true)
    {rest : List Char} (hrest : AtSeparator rest) :
    firstLexeme? (value.toList ++ rest) = some (.number n value) := by
  have htaken := (Pattern.fits_iff (Pattern.exact_ofKind n)).1 h
  have hstarts := Lexeme.startsNumber_append (Pattern.startsNumber_ofKind htaken) rest
  have hscan := Lexeme.scanNumber_written h hrest
  rw [String.ofList_toList, ← Lexeme.scan_of_startsNumber hstarts false] at hscan
  cases hwhole : value.toList ++ rest with
  | nil => rw [hwhole] at hstarts; cases hstarts
  | cons c more =>
    rw [hwhole] at hscan hstarts
    obtain ⟨hlayout, hmark, -⟩ := Lexeme.scan_number hstarts false
    exact firstLexeme?_of_scan (Reads.skipLayout_cons hlayout hmark) hscan

theorem isShort_datatypeOf (n : NumberKind) (text : List Char) :
    Turtle.isShort text (Turtle.State.datatypeOf n) = Pattern.fits (.ofKind n) text := by
  cases n <;> rfl

/-- The value of a number needs no quotes if and only if it is a numeral of the notation, and that
if and only if it is read as one number of the notation. A numeral is read as the same number in
front of a separator, whatever stands behind that. -/
theorem numeral_scans (n : NumberKind) (value : String) :
    (Turtle.isShort value.toList (Turtle.State.datatypeOf n) = true ↔ value.toList ∈ numerals n) ∧
    (value.toList ∈ numerals n ↔ lexemes? value.toList = some [.number n value, .eof]) ∧
    (value.toList ∈ numerals n → ∀ c ∈ separators, ∀ rest,
      firstLexeme? (value.toList ++ c :: rest) = some (.number n value)) := by
  rw [isShort_datatypeOf, ← Pattern.accepts_ofKind n value.toList]
  refine ⟨Iff.rfl, ⟨fun h => (Spells.number h).lexemes?_eq, fun h => ?_⟩, fun h c hc rest => ?_⟩
  · exact (lexemes?_eq_some_iff.1 h).fits
  · exact firstLexeme?_number h (.cons hc rest)

theorem numeral_scans_double :
    "-1.e+5".toList ∈ numerals .double ∧ ')' ∈ separators ∧
      firstLexeme? ("-1.e+5".toList ++ ')' :: ['.', '5']) = some (.number .double "-1.e+5") := by
  have hnumeral : "-1.e+5".toList ∈ numerals .double :=
    (numeral_scans .double "-1.e+5").1.1 (by decide)
  exact ⟨hnumeral, by decide,
    (numeral_scans .double "-1.e+5").2.2 hnumeral ')' (by decide) ['.', '5']⟩

end Rdf

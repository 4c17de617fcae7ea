import Rdf.Proofs.Document.Spelling

/-!
Which texts are local parts of names.

A text is one if and only if each of its characters can be written, as it is or behind a backslash.
The scanner finds no other local parts, so that a text that `escapeLocal` has no spelling for is
spelt in no other way either.
-/

namespace Rdf

open Text Scan

namespace Turtle

variable {text written left piece rest : List Char} {isFirst isLast : Bool} {c : Char}

/-- Whether a character can be written in a local part. -/
def isWritableIn (isFirst : Bool) (c : Char) : Bool :=
  isPlainIn isFirst c || localEscapes.contains c

/-- Whether every character of a text can be written where it stands. -/
def isLocalText (isFirst : Bool) : List Char → Bool
  | [] => true
  | c :: rest => isWritableIn isFirst c && isLocalText false rest

/-! ### What is written -/

theorem isSome_localChar (isFirst isLast : Bool) (c : Char) :
    (localChar isFirst isLast c).isSome = isWritableIn isFirst c := by
  unfold localChar isWritableIn isPlainIn
  by_cases hcolon : c = ':'
  · simp [hcolon]
  by_cases hname : (if isFirst then isNameStart c || isDigit c else isNameChar c) = true
  · rw [if_neg hcolon, if_pos hname, hname]
    simp
  by_cases hdot : c = '.' ∧ !isFirst ∧ !isLast
  · rw [if_neg hcolon, if_neg hname, if_pos hdot, hdot.1]
    simp [localEscapes]
  · rw [if_neg hcolon, if_neg hname, if_neg hdot]
    cases hescape : localEscapes.contains c <;> simp [hcolon, hname]

theorem isWritable_of_isNameChar (h : isNameChar c = true) : isWritableIn false c = true := by
  simp [isWritableIn, isPlainIn, h]

theorem isNameChar_of_isHex (h : isHex c = true) : isNameChar c = true := by
  have hword : isDigit c = true ∨ isLetter c = true := by
    simp only [isHex, isLetter, Bool.or_eq_true, Bool.and_eq_true, decide_eq_true_eq,
      Char.le_def, UInt32.le_iff_toNat_le] at h ⊢
    have hF : ('F' : Char).val.toNat = 70 := rfl
    have hf : ('f' : Char).val.toNat = 102 := rfl
    have hZ : ('Z' : Char).val.toNat = 90 := rfl
    have hz : ('z' : Char).val.toNat = 122 := rfl
    obtain (hdigit | hlower) | hupper := h
    · exact .inl hdigit
    · exact .inr (.inr (by omega))
    · exact .inr (.inl (by omega))
  obtain hdigit | hletter := hword
  · simp [isNameChar, hdigit]
  · simp [isNameChar, isNameStart, isNameBase, hletter]

/-- A percent sign and the two digits behind it can be written anywhere. -/
theorem isLocalText_percent {high low : Char} (hhigh : isHex high = true) (hlow : isHex low = true)
    (isFirst : Bool) (rest : List Char) :
    isLocalText isFirst ('%' :: high :: low :: rest) = isLocalText false rest := by
  have hpercent : isWritableIn isFirst '%' = true := by cases isFirst <;> decide
  simp [isLocalText, hpercent, isWritable_of_isNameChar (isNameChar_of_isHex hhigh),
    isWritable_of_isNameChar (isNameChar_of_isHex hlow)]

/-- A text is written if each of its characters can be. -/
theorem isSome_escapeFrom (isFirst : Bool) (text : List Char) :
    (escapeFrom isFirst text).isSome = isLocalText isFirst text := by
  fun_induction escapeFrom isFirst text with
  | case1 => rfl
  | case2 isFirst high low rest hhex ih =>
    obtain ⟨hhigh, hlow⟩ := Bool.and_eq_true_iff.1 hhex
    rw [isLocalText_percent hhigh hlow, ← ih]
    cases escapeFrom false rest <;> rfl
  | case3 isFirst high low rest _ ih =>
    rw [isLocalText, ← isSome_localChar isFirst false, ← ih]
    cases localChar isFirst false '%' <;> cases escapeFrom false (high :: low :: rest) <;> rfl
  | case4 isFirst c rest _ ih =>
    rw [isLocalText, ← isSome_localChar isFirst rest.isEmpty, ← ih]
    cases localChar isFirst rest.isEmpty c <;> cases escapeFrom false rest <;> rfl

/-! ### What is read -/

theorem isLocalText_append (isFirst : Bool) (c : Char) (piece rest : List Char) :
    isLocalText isFirst (c :: piece ++ rest) =
      (isLocalText isFirst (c :: piece) && isLocalText false rest) := by
  induction piece generalizing isFirst c with
  | nil => simp [isLocalText]
  | cons d piece ih =>
    have hrest := ih false d
    simp_all [isLocalText, Bool.and_assoc]

theorem percentEscape_eq_ok (h : percentEscape text = .ok (piece, rest)) :
    ∃ c high low, text = c :: high :: low :: rest ∧ piece = [c, high, low] ∧
      isHex high = true ∧ isHex low = true := by
  unfold percentEscape fail at h
  split at h
  · split at h
    · next hhex =>
      obtain ⟨rfl, rfl⟩ := Prod.mk.inj (Except.ok.inj h)
      exact ⟨_, _, _, rfl, rfl, Bool.and_eq_true_iff.1 hhex⟩
    · cases h
  · cases h

theorem localEscape_eq_ok (h : localEscape text = .ok (c, rest)) :
    localEscapes.contains c = true := by
  unfold localEscape fail at h
  split at h
  · split at h
    · next hescape =>
      obtain ⟨rfl, rfl⟩ := Prod.mk.inj (Except.ok.inj h)
      exact hescape
    · cases h
  · cases h

/-- What a step reads: an escape, a character that needs none, or a dot. -/
theorem localStep_eq_some (h : localStep text = .ok (some piece, rest)) :
    (∃ high low, piece = ['%', high, low] ∧ isHex high = true ∧ isHex low = true) ∨
      (∃ c, piece = [c] ∧ localEscapes.contains c = true) ∨
        ∃ c, piece = [c] ∧ text = c :: rest ∧ (c = ':' ∨ isNameChar c = true) := by
  unfold localStep at h
  split at h
  · cases h
  · next c behind =>
    split at h
    · next hpercent =>
      split at h
      · cases h
      · next hescape =>
        obtain ⟨hpiece, rfl⟩ := Prod.mk.inj (Except.ok.inj h)
        obtain ⟨c', high, low, htext, rfl, hhex⟩ := percentEscape_eq_ok hescape
        obtain ⟨rfl, -⟩ := List.cons.inj htext
        exact .inl ⟨high, low, hpercent ▸ (Option.some.inj hpiece).symm, hhex⟩
    split at h
    · split at h
      · cases h
      · next hescape =>
        obtain ⟨hpiece, rfl⟩ := Prod.mk.inj (Except.ok.inj h)
        exact .inr (.inl ⟨_, (Option.some.inj hpiece).symm, localEscape_eq_ok hescape⟩)
    split at h
    · next hplain =>
      obtain ⟨hpiece, rfl⟩ := Prod.mk.inj (Except.ok.inj h)
      exact .inr (.inr ⟨c, (Option.some.inj hpiece).symm, rfl, hplain⟩)
    split at h
    · next hdot =>
      obtain ⟨hpiece, rfl⟩ := Prod.mk.inj (Except.ok.inj h)
      exact .inr (.inl ⟨c, (Option.some.inj hpiece).symm, by simp [hdot.1, localEscapes]⟩)
    · cases h

/-- What a step reads can be written, at the start too where a local part may start. -/
theorem isLocalText_of_localStep (h : localStep text = .ok (some piece, rest))
    (hfirst : isFirst = true → startsLocal text = true) :
    ∃ c more, piece = c :: more ∧ isLocalText isFirst piece = true := by
  obtain ⟨high, low, rfl, hhigh, hlow⟩ | ⟨c, rfl, hescape⟩ | ⟨c, rfl, rfl, hplain⟩ :=
    localStep_eq_some h
  · exact ⟨'%', [high, low], rfl, isLocalText_percent hhigh hlow isFirst []⟩
  · refine ⟨c, [], rfl, ?_⟩
    simp only [isLocalText, isWritableIn, hescape, Bool.or_true, Bool.and_true]
  · refine ⟨c, [], rfl, ?_⟩
    have hwritten : isPlainIn isFirst c = true := by
      cases isFirst with
      | false => simpa [isPlainIn] using hplain
      | true =>
        -- only a percent sign and a backslash start what they do not write
        have hstarts := hfirst rfl
        have hpercent : c ≠ '%' := by
          rintro rfl
          exact absurd hplain (by decide)
        have hslash : c ≠ '\\' := by
          rintro rfl
          exact absurd hplain (by decide)
        simp only [startsLocal, beq_false_of_ne hpercent, beq_false_of_ne hslash,
          Bool.or_false, Bool.or_eq_true, beq_iff_eq] at hstarts
        simp only [isPlainIn, if_true, Bool.or_eq_true, beq_iff_eq]
        obtain (hc | hc) | hc := hstarts <;> simp [hc]
    simp [isLocalText, isWritableIn, hwritten]

/-- The loop reads texts that can be written. -/
theorem isLocalText_of_gather (h : gather localStep length_localStep text = .ok (piece, rest))
    (hfirst : isFirst = true → startsLocal text = true) : isLocalText isFirst piece = true := by
  fun_induction gather localStep length_localStep text generalizing piece rest isFirst with
  | case1 => cases h
  | case2 text left hs =>
    obtain ⟨rfl, -⟩ := Prod.mk.inj (Except.ok.inj h)
    rfl
  | case3 => cases h
  | case4 text first left hs more left' hmore ih =>
    obtain ⟨rfl, -⟩ := Prod.mk.inj (Except.ok.inj h)
    obtain ⟨c, tail, rfl, hlocal⟩ := isLocalText_of_localStep hs hfirst
    have hlater := @ih _ _ false hmore (absurd · Bool.false_ne_true)
    rw [isLocalText_append, hlocal, hlater]
    rfl

/-- What is read as a local part has a spelling. -/
theorem exists_escapeLocal (h : localPart written = .ok (text, left)) :
    ∃ spelling, escapeLocal text = some spelling := by
  unfold localPart at h
  split at h
  · next hstarts =>
    rw [← Option.isSome_iff_exists, escapeLocal, isSome_escapeFrom]
    exact isLocalText_of_gather h fun _ => hstarts
  · cases h

end Turtle

/-! ### Names in texts -/

open Turtle

variable {label localPart : String} {written spelling : List Char}

/-- The first lexeme of a text, if it has one. -/
def firstLexeme? (text : List Char) : Option Lexeme :=
  (Token.scanAll (String.ofList text)).tokens.head?.map (·.lexeme)

/-- The lexemes of a text that has no fault. -/
def lexemes? (text : List Char) : Option (List Lexeme) :=
  let found := Token.scanAll (String.ofList text)
  if found.fault = none then some (found.tokens.map (·.lexeme)) else none

theorem lexemes?_of_reads {text : List Char} {lexemes : List Lexeme} (h : Reads text lexemes) :
    lexemes? text = some lexemes := by
  obtain ⟨tokens, hscan, rfl⟩ := h.scanAll
  rw [lexemes?, hscan]
  rfl

/-- A text that begins with a label and a colon begins with a name. -/
theorem firstLexeme?_label {name : List Char} (hname : isSpaceLabel name = true)
    (rest : List Char) : firstLexeme? (name ++ ':' :: rest) =
      (Lexeme.scanName (name ++ ':' :: rest)).toOption.map (·.1) := by
  obtain ⟨c, more, htext, hc⟩ : ∃ c more, name ++ ':' :: rest = c :: more ∧
      (c = ':' ∨ isNameBase c = true) := by
    cases name with
    | nil => exact ⟨':', rest, rfl, .inl rfl⟩
    | cons c name => exact ⟨c, _, rfl, .inr (Bool.and_eq_true_iff.1 hname).1⟩
  obtain ⟨hlayout, hmark, hscan⟩ := Lexeme.scan_name hc false more
  have hskip := @Reads.skipLayout_cons more c hlayout hmark
  rw [htext, firstLexeme?, Token.scanAll, String.toList_ofList]
  cases hs : Lexeme.scanName (c :: more) with
  | error fault => simp [Token.scanFrom_of_error hskip (hscan.trans hs), Except.toOption]
  | ok found => simp [Token.scanFrom_of_ok hskip (hscan.trans hs), Except.toOption]

/-- A name that is found behind its label has a local part with a spelling. -/
theorem exists_spelling (hlabel : isSpaceLabel label.toList = true)
    (h : firstLexeme? (label.toList ++ ':' :: written) = some (.name label localPart)) :
    ∃ spelling, escapeLocal localPart.toList = some spelling := by
  have hsplit := @Lexeme.scanLabel_label label.toList (':' :: written) hlabel
    (by simpa using (by decide : Lexeme.endsLabel ':' = true))
  rw [firstLexeme?_label hlabel] at h
  simp only [Lexeme.scanName, hsplit] at h
  split at h
  · obtain rfl : "" = localPart := by simpa [Except.toOption] using h
    exact ⟨[], rfl⟩
  · split at h
    · simp [Except.toOption] at h
    · next value left hvalue =>
      obtain rfl : String.ofList value = localPart := by simpa [Except.toOption] using h
      rw [String.toList_ofList]
      exact exists_escapeLocal hvalue

/-- The spelling of a local part is read as it, behind a label and up to the end of the text or to a
separator. A text without a spelling is read as a local part from no text at all. -/
theorem escapeLocal_scans (hlabel : isSpaceLabel label.toList = true) :
    (∀ spelling, escapeLocal localPart.toList = some spelling →
      lexemes? (label.toList ++ ':' :: spelling) = some [.name label localPart, .eof] ∧
      ∀ c ∈ separators, ∀ rest,
        firstLexeme? (label.toList ++ ':' :: (spelling ++ c :: rest)) =
          some (.name label localPart)) ∧
    (escapeLocal localPart.toList = none → ∀ written,
      firstLexeme? (label.toList ++ ':' :: written) ≠ some (.name label localPart)) := by
  refine ⟨fun spelling h => ⟨?_, fun c hc rest => ?_⟩, fun hnone written hfirst => ?_⟩
  · have hend : AtSeparator [] := by simp [AtSeparator]
    have hreads := Spells.name hlabel h hend Reads.nil
    rw [List.append_nil] at hreads
    exact lexemes?_of_reads hreads
  · have hscan := Lexeme.scanName_written hlabel h (AtSeparator.cons hc rest)
    rw [firstLexeme?_label hlabel, hscan]
    simp [Except.toOption]
  · obtain ⟨spelling, h⟩ := exists_spelling hlabel hfirst
    rw [hnone] at h
    cases h

theorem escapeLocal_scans_dots :
    isSpaceLabel "ex".toList = true ∧
      escapeLocal "-a..%%41.".toList = some "\\-a..\\%%41\\.".toList ∧
      firstLexeme? ("ex".toList ++ ':' :: ("\\-a..\\%%41\\.".toList ++ ';' :: ['.'])) =
        some (.name "ex" "-a..%%41.") ∧
      ∀ written, firstLexeme? ("ex".toList ++ ':' :: written) ≠ some (.name "ex" "a b") := by
  have hlabel : isSpaceLabel "ex".toList = true := by decide
  have hspelling : escapeLocal "-a..%%41.".toList = some "\\-a..\\%%41\\.".toList := by decide
  have hnone : escapeLocal "a b".toList = none := by decide
  exact ⟨hlabel, hspelling,
    ((escapeLocal_scans hlabel).1 _ hspelling).2 ';' (by decide) ['.'],
    (escapeLocal_scans hlabel).2 hnone⟩

end Rdf

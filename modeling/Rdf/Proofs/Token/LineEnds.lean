import Rdf.Proofs.Token.Forms
import Rdf.Proofs.Token.Gaps

/-!
Line ends between tokens.

A text whose line ends have become line feeds reads as the same lexemes, as long as none of its
tokens has a carriage return in it. Long strings are the tokens that may have one.
-/

namespace Rdf

open Text Scan

namespace Text

variable {taken rest : List Char}

theorem unifyLines_cons {c : Char} (hc : c ≠ '\r') (rest : List Char) :
    unifyLines (c :: rest) = c :: unifyLines rest := by
  rw [unifyLines]
  · rw [if_neg hc]
  · exact fun _ he => absurd he hc

theorem unifyLines_append (htaken : '\r' ∉ taken) (rest : List Char) :
    unifyLines (taken ++ rest) = taken ++ unifyLines rest := by
  induction taken with
  | nil => rfl
  | cons c taken ih =>
    obtain ⟨hc, htaken⟩ := not_or.1 (mt List.mem_cons.2 htaken)
    rw [List.cons_append, unifyLines_cons (Ne.symm hc), ih htaken, List.cons_append]

/-- A text goes on as before up to its first carriage return, where a line feed comes to stand. -/
theorem opens_unifyLines (text : List Char) :
    unifyLines text = text ∨ Opens text (unifyLines text) := by
  have hfeed : '\n' ∈ spacers := by decide
  fun_induction unifyLines text with
  | case1 rest => exact .inr (.here hfeed _)
  | case2 c rest _ ih =>
    by_cases hc : c = '\r'
    · rw [if_pos hc]
      exact .inr (.here hfeed _)
    · rw [if_neg hc]
      exact ih.imp (congrArg _) (.cons c)
  | case3 => exact .inl rfl

/-- Every way to end a line ends a comment, and is layout outside of one. -/
theorem skipLayout_unifyLines (inComment : Bool) (text : List Char) :
    skipLayout inComment (unifyLines text) = unifyLines (skipLayout inComment text) := by
  fun_induction unifyLines text generalizing inComment with
  | case1 rest ih => cases inComment <;> exact ih false
  | case2 c rest _ ih =>
    by_cases hc : c = '\r'
    · subst hc
      cases inComment <;> exact ih false
    rw [if_neg hc]
    simp only [skipLayout]
    split
    · exact ih _
    split
    · exact ih _
    split
    · exact ih _
    · exact (unifyLines_cons hc rest).symm
  | case3 => rfl

end Text

namespace Lexeme

open Pattern

variable {left taken : List Char} {afterString : Bool} {l : Lexeme} {later : List Lexeme}

/-- Behind a point that belongs to no number, a word that begins as an exponent does has a label. -/
theorem label_of_exponent {c : Char} {rest : List Char} (hc : isExponentMark c = true)
    (h : Lexes afterString ('.' :: c :: rest) later) :
    ∃ label more, scanLabel (c :: rest) = (label, ':' :: more) := by
  have hmark : c = 'e' ∨ c = 'E' := by simpa [isExponentMark] using hc
  have hword : c ∉ spacers ∧ isNameBase c = true ∧ isDigit c = false := by
    obtain rfl | rfl := hmark <;> decide
  have hpoint : scan afterString ('.' :: c :: rest) = .ok (.punct .dot, c :: rest) := by
    have hdot : isDigit '.' = false := by decide
    simp [scan, startsNumber, hdot, hword.2.2, Punct.ofChar?]
  obtain ⟨l, left, later, hscan, -, hlater⟩ := h.of_cons (by decide)
  rw [hpoint] at hscan
  obtain ⟨rfl, rfl⟩ := Prod.mk.inj (Except.ok.inj hscan)
  obtain ⟨l, left, later, hscan, -, -⟩ := hlater.of_cons hword.1
  rw [(scan_name (.inr hword.2.1) _ _).2.2] at hscan
  obtain ⟨label, more, hlabel⟩ := colon_of_exponent hc hscan
  exact ⟨label, more ++ left, hlabel⟩

theorem not_mem_scanLabel (text : List Char) : '\r' ∉ (scanLabel text).1 := by
  have hlabel := isSpaceLabel_scanLabel text
  generalize (scanLabel text).1 = label at hlabel
  cases label with
  | nil => exact List.not_mem_nil
  | cons c tail =>
    simp only [isSpaceLabel, isLabelTail, Bool.and_eq_true, List.all_eq_true] at hlabel
    have hname : isNameBase '\r' = false ∧ isNameChar '\r' = false := by decide
    intro hmem
    obtain rfl | hmem := List.mem_cons.1 hmem
    · simp [hname] at hlabel
    · have hall := hlabel.2.1 _ hmem
      simp [hname] at hall

/-- A lexeme is read the same when the line ends behind it change. -/
theorem scan_unifyLines (htaken : taken ≠ [])
    (hscan : scan afterString (taken ++ left) = .ok (l, left))
    (hlater : Lexes l.isString left later) :
    scan afterString (taken ++ unifyLines left) = .ok (l, unifyLines left) := by
  obtain he | hopens := opens_unifyLines left
  · rwa [he]
  -- Only behind a number does it matter what stands behind a point, which might be an exponent.
  refine scan_opens_of_lexes hopens htaken hscan hlater fun {more more'} hleft hleft' hhead => ?_
  subst hleft
  have hpoint := unifyLines_cons (by decide : '.' ≠ '\r') more
  obtain rfl : unifyLines more = more' := (List.cons.inj (hpoint.symm.trans hleft')).2
  cases more with
  | nil => cases hhead
  | cons c more =>
    have hc : isExponentMark c = true := by
      rw [← Bool.not_eq_false]
      intro hc
      have hother : (c :: more).head?.any isExponentMark = false := hc
      obtain he | hopens := opens_unifyLines (c :: more)
      · rw [he, hother] at hhead
        cases hhead
      · rw [hopens.any_eq_false (by decide) hother] at hhead
        cases hhead
    obtain ⟨label, rest, hlabel⟩ := label_of_exponent hc hlater
    have hsplit := scanLabel_append (c :: more)
    have hreturn := not_mem_scanLabel (c :: more)
    rw [hlabel] at hsplit hreturn
    refine ⟨label, rest, unifyLines rest, hsplit.symm, ?_⟩
    rw [← hsplit, unifyLines_append hreturn, unifyLines_cons (by decide)]

end Lexeme

/-! ### Texts -/

/-- No token of the text has a carriage return in it. -/
def Token.ReturnsApart (text : String) : Prop :=
  ∀ span ∈ Token.spans text, '\r' ∉ (text.toList.take span.2).drop span.1

instance (text : String) : Decidable (Token.ReturnsApart text) :=
  inferInstanceAs (Decidable (∀ span ∈ Token.spans text, _))

namespace Lexes

variable {before text : List Char} {afterString : Bool} {lexemes : List Lexeme}

/-- A text, which stands behind some characters, reads as the same lexemes when its line ends have
become line feeds. -/
theorem unifyLines (h : Lexes afterString text lexemes)
    (hapart : ∀ span ∈ Token.spansFrom before.length afterString text,
      '\r' ∉ ((before ++ text).take span.2).drop span.1) :
    Lexes afterString (Text.unifyLines text) lexemes := by
  induction h generalizing before with
  | eof hskip => exact .eof (by rw [skipLayout_unifyLines, hskip]; rfl)
  | @cons afterString text rest left c l later hskip hscan hlater ih =>
    obtain ⟨lay, more, -, -, rfl, rfl, hspans⟩ := Token.exists_spansFrom hskip hscan
    rw [hspans, List.forall_mem_cons] at hapart
    obtain ⟨hown, hbehind⟩ := hapart
    have htext : before ++ (lay ++ c :: (more ++ left)) =
        (before ++ (lay ++ c :: more)) ++ left := by simp
    have hoffset : before.length + (lay ++ c :: more).length =
        (before ++ (lay ++ c :: more)).length := List.length_append.symm
    have hreturn : '\r' ∉ c :: more := by
      rw [htext, hoffset, List.take_left, ← List.append_assoc, ← List.length_append,
        List.drop_left] at hown
      exact hown
    have hskip' : skipLayout false (Text.unifyLines (lay ++ c :: (more ++ left))) =
        c :: (more ++ Text.unifyLines left) := by
      rw [skipLayout_unifyLines, hskip, ← List.cons_append, unifyLines_append hreturn,
        List.cons_append]
    have hscan' := @Lexeme.scan_unifyLines left (c :: more) _ _ _ nofun hscan hlater
    rw [htext, hoffset] at hbehind
    exact .cons hskip' hscan' (ih hbehind)

end Lexes

/-- A text whose tokens have no carriage returns in them reads as the same lexemes with line feeds
for line ends. -/
theorem Token.ReturnsApart.lexes {text : String} {lexemes : List Lexeme}
    (hapart : ReturnsApart text) (h : Lexes false text.toList lexemes) :
    Lexes false (Text.unifyLines text.toList) lexemes :=
  @Lexes.unifyLines [] _ _ _ h hapart

/-- A fault comes before the end of the text. -/
theorem Token.eof_not_mem_of_fault {place : Place} {afterString : Bool} {text : List Char}
    (h : (scanFrom place afterString text).fault ≠ none) :
    .eof ∉ (scanFrom place afterString text).tokens.map (·.lexeme) := by
  fun_induction scanFrom place afterString text with
  | case1 => exact absurd rfl h
  | case2 => exact List.not_mem_nil
  | case3 place afterString text c rest hskip start lexeme left hscan later ih =>
    rw [List.map_cons]
    exact List.not_mem_cons_of_ne_of_not_mem (Ne.symm (Lexeme.ne_eof_of_scan hscan)) (ih h)

end Rdf

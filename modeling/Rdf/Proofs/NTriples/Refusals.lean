import Rdf.Proofs.NTriples.Inclusion
import Rdf.Proofs.NTriples.RoundTrip
import Rdf.Proofs.Token.Forms

/-!
What the reader of N-Triples refuses.

The checked constructors take whatever the reader hands them, so that it refuses a token for its
grammar only.
-/

namespace Rdf

/-- The refusal is that the grammar does not allow the token. -/
def Refusal.IsGrammar : Refusal → Prop
  | .grammar _ => True
  | .resolution _ | .invalid _ => False

namespace NTriples

variable {s s1 : State} {l : Lexeme} {refusal : Refusal}

theorem isGrammar_of_iri {role : Role} (h : State.iri role l = .error refusal) :
    refusal.IsGrammar := by
  cases l with
  | iri value =>
    by_cases hscheme : hasScheme value.toList = true
    · have hname := @iri_eq_ok ⟨value⟩ hscheme role
      simp [hname] at h
    · simp only [State.iri, hscheme] at h
      exact Except.error.inj h ▸ trivial
  | _ => exact Except.error.inj h ▸ trivial

theorem literal_eq_ok {value : String} {language : Option String} {datatype : Option Iri}
    (h : Literal.Valid ⟨value, language, datatype⟩) (s : State) (subject predicate : Term) :
    s.literal subject predicate value language datatype =
      .ok (s.expect (.dot subject predicate (.literal ⟨value, language, datatype⟩))) := by
  have hmake := h.make_eq_ok
  simp only at hmake
  simp only [State.literal, hmake, Refusal.checked]

theorem isGrammar_of_endLine {subject predicate object : Term}
    (hform : Triple.WellFormed ⟨subject, predicate, object⟩)
    (h : s.endLine subject predicate object l = .error refusal) : refusal.IsGrammar := by
  by_cases hl : l = .punct .dot
  · subst hl
    simp [endLine_eq_ok hform] at h
  · simp only [State.endLine, if_neg hl] at h
    exact Except.error.inj h ▸ trivial

/-- A legible lexeme is refused by the grammar only. -/
theorem isGrammar_of_step (hfits : s.expecting.Fits s.graph) (hl : l.Legible)
    (h : s.step l = .error refusal) : refusal.IsGrammar := by
  have hblank : ∀ {label : String}, l = .blank label →
      ∃ g, s.blank label = .ok (.blank label, { s with graph := g }) := by
    rintro label rfl
    obtain ⟨g, hnode, -⟩ := blank_eq_ok (Term.Sound.blank hl).valid s
    exact ⟨g, hnode⟩
  cases he : s.expecting with
  | nothing => simp [State.step, he] at h
  | subject =>
    cases l with
    | eof => simp [State.step, he] at h
    | blank label =>
      obtain ⟨g, hnode⟩ := hblank rfl
      simp [State.step, he, hnode] at h
    | _ =>
      simp only [State.step, he] at h
      split at h
      · next hiri => exact Except.error.inj h ▸ isGrammar_of_iri hiri
      · simp at h
  | predicate subject =>
    simp only [State.step, he] at h
    split at h
    · next hiri => exact Except.error.inj h ▸ isGrammar_of_iri hiri
    · simp at h
  | object subject predicate =>
    cases l with
    | blank label =>
      obtain ⟨g, hnode⟩ := hblank rfl
      simp [State.step, he, hnode] at h
    | string delimiter value =>
      simp only [State.step, he] at h
      split at h
      · simp at h
      · exact Except.error.inj h ▸ trivial
    | _ =>
      simp only [State.step, he] at h
      split at h
      · next hiri => exact Except.error.inj h ▸ isGrammar_of_iri hiri
      · simp at h
  | suffix subject predicate value =>
    rw [he] at hfits
    obtain ⟨hsubject, -, hpredicate⟩ := hfits
    have hform : Triple.WellFormed ⟨subject, predicate, .literal ⟨value, none, none⟩⟩ :=
      ⟨hsubject, hpredicate, rfl⟩
    cases l with
    | languageTag tag =>
      have htag : tag ≠ "" := by
        rintro rfl
        have hempty : isLanguageTag "".toList = true := hl
        exact absurd hempty (by decide)
      have hvalid : Literal.Valid ⟨value, some tag, none⟩ :=
        ⟨by simpa using htag, .inr rfl, by simp⟩
      simp [State.step, he, literal_eq_ok hvalid] at h
    | datatypeMark => simp [State.step, he] at h
    | _ =>
      simp only [State.step, he] at h
      exact isGrammar_of_endLine hform h
  | datatype subject predicate value =>
    simp only [State.step, he] at h
    split at h
    · next hiri => exact Except.error.inj h ▸ isGrammar_of_iri hiri
    · next name hiri =>
      have hname := Iri.Valid.of_isAbsolute (eq_of_iri hiri).2
      have hvalid : Literal.Valid ⟨value, none, some name⟩ :=
        ⟨by simp, .inl rfl, by simpa using hname⟩
      simp [literal_eq_ok hvalid] at h
  | dot subject predicate object =>
    rw [he] at hfits
    simp only [State.step, he] at h
    exact isGrammar_of_endLine hfits.1 h

/-- The end of the document is the end of the reading. -/
theorem graph?_of_eof (h : s.step .eof = .ok s1) : s1.graph? = some s1.graph := by
  have hend : s1.expecting = .nothing := by
    cases he : s.expecting with
    | nothing =>
      simp only [State.step, he] at h
      exact Except.ok.inj h ▸ he
    | subject =>
      simp only [State.step, he] at h
      exact Except.ok.inj h ▸ rfl
    | suffix subject predicate value =>
      simp only [State.step, he] at h
      split at h <;> simp [State.endLine, Refusal.refuse] at h
    | _ => simp [State.step, he, State.iri, State.endLine, Refusal.refuse] at h
  exact if_pos hend

end NTriples

end Rdf

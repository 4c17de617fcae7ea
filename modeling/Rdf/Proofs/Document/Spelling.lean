import Rdf.Proofs.Token.Names
import Rdf.Proofs.Token.Numbers
import Rdf.Proofs.Token.Reading

/-!
What is written reads as what was meant.

A part of a document is written without regard to what comes behind it, as long as that begins with
a separator. `Spells` says what such a part reads as.
-/

namespace Rdf

open Text Scan

theorem bind_eq_ok {ε α β : Type} {step : Except ε α} {next : α → Except ε β} {result : β} :
    (step >>= next) = .ok result ↔ ∃ value, step = .ok value ∧ next value = .ok result := by
  cases step <;> simp [bind, Except.bind]

/-- In front of a separator, a text reads as a row of lexemes. -/
def Spells (text : List Char) (lexemes : List Lexeme) : Prop :=
  ∀ ⦃rest later⦄, AtSeparator rest → Reads rest later → Reads (text ++ rest) (lexemes ++ later)

/-- The lexemes of a literal in quotes. -/
def literalLexemes (name : Iri → Lexeme) (l : Literal) : List Lexeme :=
  .string "\"" l.value ::
    match l.language, l.datatype with
    | some tag, _ => [.languageTag tag]
    | none, some iri => [.datatypeMark, name iri]
    | none, none => []

theorem AtSeparator.append {first rest : List Char} (h : AtSeparator first)
    (hrest : AtSeparator rest) : AtSeparator (first ++ rest) := by
  cases first with
  | nil => exact hrest
  | cons c first => exact h

theorem AtSeparator.flatMap {α : Type} {c : Char} (hc : c ∈ separators) (f : α → List Char)
    (entries : List α) : AtSeparator (entries.flatMap fun entry => c :: f entry) := by
  cases entries with
  | nil => simp [AtSeparator]
  | cons entry entries => exact .cons hc _

namespace Spells

variable {first second text : List Char} {l m : List Lexeme}

theorem nil : Spells [] [] := fun _ _ _ h => h

/-! ### Terms -/

theorem iri (value : String) : Spells (Spelling.iriRef value) [.iri value] :=
  fun _ _ _ h => .iri value (h false)

theorem blank {id : String} (hid : isBlankLabel id.toList = true) :
    Spells ('_' :: ':' :: id.toList) [.blank id] := fun _ _ hrest h => .blank hid hrest (h false)

theorem literal {literal : Literal} (hsingle : literal.language = none ∨ literal.datatype = none)
    (htag : ∀ tag ∈ literal.language, isLanguageTag tag.toList = true)
    {datatype : Iri → List Char} {name : Iri → Lexeme}
    (hname : ∀ iri ∈ literal.datatype, Spells (datatype iri) [name iri]) :
    Spells (Spelling.literal literal datatype) (literalLexemes name literal) := by
  obtain ⟨value, language, type⟩ := literal
  intro rest later hrest h
  cases language with
  | some tag =>
    have hafter := Reads.languageTag (htag tag rfl) hrest (h false)
    simpa [Spelling.literal, literalLexemes] using Reads.string value (by simp) hafter
  | none =>
    cases type with
    | some iri =>
      have hafter := Reads.datatypeMark (hname iri rfl hrest h false)
      simpa [Spelling.literal, literalLexemes] using Reads.string value (by simp) (hafter true)
    | none =>
      have hquote : rest.head? ≠ some '"' := fun he => absurd (hrest '"' he) (by decide)
      simpa [Spelling.literal, literalLexemes] using Reads.string value hquote (h true)

theorem number {n : NumberKind} {text : String} (h : Pattern.fits (.ofKind n) text.toList = true) :
    Spells text.toList [.number n text] := by
  intro rest later hrest hreads
  have hscan := Lexeme.scanNumber_written h hrest
  have htaken := (Pattern.fits_iff (Pattern.exact_ofKind n)).1 h
  have hstarts := Lexeme.startsNumber_append (Pattern.startsNumber_ofKind htaken) rest
  cases hc : text.toList ++ rest with
  | nil => simp [hc, Lexeme.startsNumber] at hstarts
  | cons c more =>
    rw [hc] at hscan hstarts
    have hdispatch := Lexeme.scan_number hstarts
    refine .lexeme (hdispatch false).1 (hdispatch false).2.1 (fun afterString => ?_) (hreads false)
    rw [(hdispatch afterString).2.2, hscan, String.ofList_toList]

/-- What is scanned as a name reads as it. -/
theorem of_scanName {lexeme : Lexeme} {c : Char} (hc : c = ':' ∨ isNameBase c = true)
    (hstring : lexeme.isString = false)
    (hscan : ∀ rest, AtSeparator rest → Lexeme.scanName (c :: text ++ rest) = .ok (lexeme, rest)) :
    Spells (c :: text) [lexeme] := by
  intro rest later hrest h
  have hdispatch := Lexeme.scan_name hc
  have hleft : Lexes lexeme.isString rest later := by
    rw [hstring]
    exact h false
  exact .lexeme (hdispatch false []).1 (hdispatch false []).2.1 (fun afterString =>
    (hdispatch afterString (text ++ rest)).2.2.trans (hscan rest hrest)) hleft

theorem name {label localPart : String} {written : List Char}
    (hlabel : isSpaceLabel label.toList = true)
    (h : Turtle.escapeLocal localPart.toList = some written) :
    Spells (label.toList ++ ':' :: written) [.name label localPart] := by
  have hscan : ∀ rest, AtSeparator rest →
      Lexeme.scanName (label.toList ++ ':' :: written ++ rest) =
        .ok (.name label localPart, rest) := by
    intro rest hrest
    have hwritten := Lexeme.scanName_written hlabel h hrest
    simpa using hwritten
  cases hlist : label.toList with
  | nil =>
    rw [hlist] at hscan
    exact of_scanName (.inl rfl) rfl hscan
  | cons c tail =>
    rw [hlist] at hscan hlabel
    have hc : isNameBase c = true := (Bool.and_eq_true_iff.1 hlabel).1
    exact of_scanName (.inr hc) rfl hscan

theorem keyword {word : List Char} {lexeme : Lexeme} (hlabel : isSpaceLabel word = true)
    (hne : word ≠ []) (hword : Lexeme.keyword? word = some lexeme)
    (hstring : lexeme.isString = false) : Spells word [lexeme] := by
  cases word with
  | nil => exact (hne rfl).elim
  | cons c tail =>
    have hc : isNameBase c = true := (Bool.and_eq_true_iff.1 hlabel).1
    exact of_scanName (.inr hc) hstring fun rest => Lexeme.scanName_keyword hlabel hword

/-! ### Rows -/

theorem punct (mark : Punct) (hdot : mark ≠ .dot) (h : Spells second m) :
    Spells (mark.toChar :: second) (.punct mark :: m) := fun _ _ hrest hreads =>
  .punct mark (fun he => (hdot he).elim) (h hrest hreads false)

theorem layout {c : Char} (hc : isLayout c = true) (h : Spells second m) : Spells (c :: second) m :=
  fun _ _ hrest hreads => (h hrest hreads).layout hc

theorem space (h : Spells second m) : Spells (' ' :: second) m := h.layout rfl

/-- A text that is empty or begins with a separator may stand behind another. -/
theorem append (h1 : Spells first l) (h2 : Spells second m) (hsecond : AtSeparator second) :
    Spells (first ++ second) (l ++ m) := by
  intro rest later hrest hreads
  rw [List.append_assoc, List.append_assoc]
  exact h1 (hsecond.append hrest) (h2 hrest hreads)

theorem of_space (h : Spells (' ' :: second) m) : Spells second m :=
  fun _ _ hrest hreads => (h hrest hreads).of_space

end Spells

end Rdf

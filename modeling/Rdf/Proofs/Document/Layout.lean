import Rdf.Proofs.Document.Outcome
import Rdf.Proofs.Token.Gaps

/-!
Layout between tokens is insignificant.

A gap in front of a token or behind one moves the places of what comes after it. The lexemes stay,
so that the readers go through the same states and give the same graph or refuse the same token.
-/

namespace Rdf

/-! ### Readings of the same lexemes -/

/-- Two readings give the same result, or refuse tokens with the same number for the same cause. -/
def Corresponds {α : Type} (source : SourceName) (tokens tokens' : List Token)
    (reading reading' : Except ReadFailure α) : Prop :=
  (∃ result, reading = .ok result ∧ reading' = .ok result) ∨
    ∃ (i : Nat) (token token' : Token) (refusal : Refusal),
      tokens[i]? = some token ∧ tokens'[i]? = some token' ∧
      reading = .error (.ofRefusal source token refusal) ∧
      reading' = .error (.ofRefusal source token' refusal)

namespace Machine

variable {σ α : Type} (machine : Machine σ α) {source : SourceName}

/-- Runs over the same lexemes end in the same state or with the same refusal. -/
theorem run_of_lexemes {state : σ} {tokens tokens' : List Token}
    (h : tokens.map (·.lexeme) = tokens'.map (·.lexeme)) :
    (∃ next, machine.run state tokens = .ok next ∧ machine.run state tokens' = .ok next) ∨
      ∃ (i : Nat) (token token' : Token) (refusal : Refusal),
        tokens[i]? = some token ∧ tokens'[i]? = some token' ∧
        machine.run state tokens = .error (token, refusal) ∧
        machine.run state tokens' = .error (token', refusal) := by
  induction tokens generalizing state tokens' with
  | nil =>
    obtain rfl := List.map_eq_nil_iff.1 h.symm
    exact .inl ⟨state, rfl, rfl⟩
  | cons token rest ih =>
    obtain ⟨token', rest', rfl, hlexeme, hrest⟩ := List.map_eq_cons_iff.1 h.symm
    simp only [run, hlexeme]
    cases hs : machine.step state token.lexeme with
    | error refusal => exact .inr ⟨0, token, token', refusal, rfl, rfl, rfl, rfl⟩
    | ok next =>
      obtain hrun | ⟨i, found, found', refusal, hi, hi', hrun⟩ := @ih next rest' hrest.symm
      · exact .inl hrun
      · exact .inr ⟨i + 1, found, found', refusal, hi, hi', hrun⟩

/-- Readings of the same lexemes correspond, where they come to an end. -/
theorem read_corresponds {start : σ} {tokens tokens' : List Token}
    (h : tokens.map (·.lexeme) = tokens'.map (·.lexeme))
    (hends : machine.read source start ⟨tokens, none⟩ ≠ .error .unfinished) :
    Corresponds source tokens tokens' (machine.read source start ⟨tokens, none⟩)
      (machine.read source start ⟨tokens', none⟩) := by
  obtain ⟨next, hrun, hrun'⟩ | ⟨i, token, token', refusal, hi, hi', hrun, hrun'⟩ :=
    @run_of_lexemes σ α machine start tokens tokens' h
  · cases hresult : machine.result? next with
    | none => exact absurd (by simp [read, hrun, hresult]) hends
    | some result =>
      exact .inl ⟨result, by simp [read, hrun, hresult], by simp [read, hrun', hresult]⟩
  · exact .inr ⟨i, token, token', refusal, hi, hi', by simp [read, hrun], by simp [read, hrun']⟩

end Machine

theorem ReadFailure.StemsFrom.ne_unfinished {blames : Lexeme → Refusal → Prop}
    {source : SourceName} {found : Tokens} {failure : ReadFailure}
    (h : failure.StemsFrom blames source found) : failure ≠ .unfinished := by
  obtain ⟨error, -, rfl⟩ | ⟨token, -, refusal, -, rfl⟩ := h
  · exact nofun
  · cases refusal <;> exact nofun

theorem Answers.ne_unfinished {α : Type} {holds : α → Prop} {blames : Lexeme → Refusal → Prop}
    {source : SourceName} {found : Tokens} {reading : Except ReadFailure α}
    (h : Answers holds (·.StemsFrom blames source found) reading) :
    reading ≠ .error .unfinished := by
  rintro rfl
  exact ReadFailure.StemsFrom.ne_unfinished h rfl

/-! ### Texts with a gap more -/

/-- A text with a gap behind some number of its characters. -/
def withGap (text : String) (n : Nat) (gap : List Char) : String :=
  String.ofList (text.toList.take n ++ (gap ++ text.toList.drop n))

variable {text : String} {gap : List Char} {n : Nat}

/-- A gap at the beginning or the end of a token leaves all lexemes as they are. -/
theorem scanAll_withGap (htext : (Token.scanAll text).fault = none) {span : Nat × Nat}
    (hspan : span ∈ Token.spans text) (hn : n = span.1 ∨ n = span.2) (hgap : Gap gap) :
    ∃ tokens tokens', Token.scanAll text = ⟨tokens, none⟩ ∧
      Token.scanAll (withGap text n gap) = ⟨tokens', none⟩ ∧
      tokens.map (·.lexeme) = tokens'.map (·.lexeme) := by
  have hlexes := Lexes.of_scanFrom htext
  obtain ⟨k, hk, hspaced⟩ := @Token.spaced_of_mem_spansFrom gap _ _ _ _ _ _ hspan hn hlexes
  obtain rfl : n = k := hk.trans (Nat.zero_add k)
  obtain ⟨tokens', hscan', hlexemes⟩ := (hlexes.spaced hgap hspaced).scanFrom .start
  refine ⟨(Token.scanAll text).tokens, tokens', ?_, ?_, hlexemes.symm⟩
  · rw [← htext]
  · rwa [Token.scanAll, withGap, String.toList_ofList]

/-- Layout between tokens is insignificant. A gap at the beginning or the end of a token leaves the
lexemes of the text, and the readers give the same graph or refuse the same token. -/
theorem layout_insignificant (htext : (Token.scanAll text).fault = none) {span : Nat × Nat}
    (hspan : span ∈ Token.spans text) (hn : n = span.1 ∨ n = span.2) (hgap : Gap gap) :
    (Token.scanAll (withGap text n gap)).fault = none ∧
      (Token.scanAll (withGap text n gap)).tokens.map (·.lexeme) =
        (Token.scanAll text).tokens.map (·.lexeme) ∧
      (∀ source base, Corresponds source (Token.scanAll text).tokens
        (Token.scanAll (withGap text n gap)).tokens (Turtle.read text source base)
        (Turtle.read (withGap text n gap) source base)) ∧
      ∀ source, Corresponds source (Token.scanAll text).tokens
        (Token.scanAll (withGap text n gap)).tokens (NTriples.read text source)
        (NTriples.read (withGap text n gap) source) := by
  obtain ⟨tokens, tokens', hscan, hscan', hlexemes⟩ := scanAll_withGap htext hspan hn hgap
  simp only [hscan, hscan', Turtle.read, NTriples.read, Turtle.readTokens, NTriples.readTokens]
  refine ⟨trivial, hlexemes.symm, fun source base => ?_, fun source => ?_⟩
  · have hanswers := Turtle.answers_read text source base
    rw [Turtle.read, hscan] at hanswers
    exact Turtle.machine.read_corresponds hlexemes hanswers.ne_unfinished
  · have hanswers := NTriples.answers_read text source
    rw [NTriples.read, hscan] at hanswers
    exact NTriples.machine.read_corresponds hlexemes hanswers.ne_unfinished

/-- An integer is no double with the name behind its point, with a comment between them or not. -/
theorem layout_insignificant_point :
    let text := "@prefix e5: <urn:e#> .\ne5:s e5:p 1.e5:t e5:p 'x'@en . # end"
    let gap := ' ' :: '#' :: ['.', '5'] ++ ['\r']
    (Token.scanAll text).fault = none ∧ (33, 34) ∈ Token.spans text ∧ Gap gap ∧
      ∃ g, Turtle.read text (.text "document") none = .ok g ∧
        Turtle.read (withGap text 34 gap) (.text "document") none = .ok g ∧
        g.triples.length = 2 := by
  intro text gap
  have htext : (Token.scanAll text).fault = none := by decide +kernel
  have hspan : (33, 34) ∈ Token.spans text := by decide +kernel
  have hbody : ∀ c ∈ ['.', '5'], Scan.endsLine c = false :=
    List.forall_mem_cons.2 ⟨rfl, List.forall_mem_singleton.2 rfl⟩
  have hgap : Gap gap := .blank rfl (.comment hbody rfl .nil)
  have hlength : (Turtle.read text (.text "document") none).toOption.map (·.triples.length) =
      some 2 := by decide +kernel
  refine ⟨htext, hspan, hgap, ?_⟩
  obtain ⟨g, hg, hg'⟩ | ⟨_, _, _, _, -, -, hrefused, -⟩ :=
    (layout_insignificant htext hspan (.inr rfl) hgap).2.2.1 (.text "document") none
  · exact ⟨g, hg, hg', by simpa [hg, Except.toOption] using hlength⟩
  · simp [hrefused, Except.toOption] at hlength

end Rdf

import Rdf.Document.Format
import Rdf.Proofs.NTriples.Refusals
import Rdf.Proofs.Token.Extent
import Rdf.Proofs.Turtle.Soundness
import Rdf.Proofs.Turtle.Writing

/-!
What the reading of a document comes to.

A document gives a graph that is sound and can be written, or one error, which has a place in the
text. The error is about what stands at that place.
-/

namespace Rdf

variable {text : String} {source : SourceName} {g : Graph}

/-! ### Runs over a text -/

theorem Tokens.Located.legible {whole : List Char} {found : Tokens} (h : found.Located whole) :
    ∀ token ∈ found.tokens, token.lexeme.Legible := by
  intro token htoken
  obtain ⟨offset, -, -, afterString, left, hscan⟩ := h.tokens token htoken
  exact Lexeme.legible_of_scan hscan

/-- A machine that answers to legible lexemes answers to a text, where it ends with the text. -/
theorem Machine.answers_scanAll {σ α : Type} (machine : Machine σ α) {holds : σ → Prop}
    {blames : Lexeme → Refusal → Prop} {start : σ} (hstart : holds start)
    (hstep : ∀ {s : σ} {l : Lexeme}, holds s → l.Legible →
      Answers holds (blames l) (machine.step s l))
    (hend : ∀ {s next : σ}, machine.step s .eof = .ok next →
      ∃ result, machine.result? next = some result) :
    Answers (fun result => ∃ s, holds s ∧ machine.result? s = some result)
      (·.StemsFrom blames source (Token.scanAll text))
      (machine.read source start (Token.scanAll text)) := by
  have hlocated := Token.located_scanAll text
  refine machine.read_answers hstep hstart hlocated.legible fun hfault => ?_
  obtain ⟨before, last, hsplit, hlast⟩ := hlocated.ends hfault
  exact ⟨before, last, hsplit, fun hs => hend (hlast ▸ hs)⟩

theorem Turtle.answers_read (text : String) (source : SourceName) (base : Option Iri) :
    Answers (·.Sound base) (·.StemsFrom Refusal.LiesIn source (Token.scanAll text))
      (Turtle.read text source base) := by
  have hstart : Turtle.State.Sound base { graph := { base } } :=
    ⟨⟨⟨by simp, by simp, .inl rfl⟩, by simp, by simp⟩, trivial⟩
  refine (Turtle.machine.answers_scanAll hstart Turtle.step_answers fun hs =>
    ⟨_, Turtle.State.graph?_of_eof hs⟩).imp fun g hresult => ?_
  obtain ⟨s, hs, hresult⟩ := hresult
  have hgraph : s.expecting = .nothing ∧ s.graph = g := by
    simpa [Turtle.machine, Turtle.State.graph?] using hresult
  exact hgraph.2 ▸ hs.holds.graph

/-- The reader of N-Triples follows the grammar, so that its refusals are of no other kind. -/
theorem NTriples.answers_read (text : String) (source : SourceName) :
    Answers (fun _ => True) (·.StemsFrom (fun _ => Refusal.IsGrammar) source (Token.scanAll text))
      (NTriples.read text source) := by
  have hstart : ∃ t, NTriples.Matches none {} t :=
    ⟨{ graph := {} }, rfl, ⟨rfl, rfl⟩, fun _ => rfl, rfl, rfl, trivial⟩
  have hstep : ∀ {s : NTriples.State} {l : Lexeme}, (∃ t, NTriples.Matches none s t) → l.Legible →
      Answers (fun s => ∃ t, NTriples.Matches none s t) Refusal.IsGrammar
        (NTriples.machine.step s l) := by
    rintro s l ⟨t, ht⟩ hl
    cases hs : NTriples.machine.step s l with
    | error refusal => exact NTriples.isGrammar_of_step ht.fits hl hs
    | ok s1 =>
      obtain ⟨t1, -, hmatches⟩ := ht.step hs
      exact ⟨t1, hmatches⟩
  exact (NTriples.machine.answers_scanAll hstart hstep fun hs =>
    ⟨_, NTriples.graph?_of_eof hs⟩).imp fun _ _ => trivial

/-! ### Graphs that have been read -/

theorem Turtle.sound_of_read {base : Option Iri} (h : Turtle.read text source base = .ok g) :
    g.Sound base := by
  have hread := Turtle.answers_read text source base
  rwa [h] at hread

theorem NTriples.sound_of_read (h : NTriples.read text source = .ok g) : g.Sound none := by
  obtain ⟨hturtle, hbase, -⟩ := NTriples.read_inTurtle h source none
  have hsame : g.withBase none = g := hbase ▸ rfl
  exact Turtle.sound_of_read (hsame ▸ hturtle)

theorem Graph.Sound.exists_write {base : Option Iri} (h : g.Sound base) (format : Format)
    {options : Turtle.Options} (hlists : ∀ name, options.lists ≠ .unknown name) :
    ∃ document, format.write g options = .ok document := by
  have hpasses : ∀ t ∈ g.triples, t.Passes := fun t ht =>
    ⟨(h.triples t ht).valid, (h.triples t ht).writable⟩
  cases format with
  | nTriples =>
    obtain ⟨lines, hlines, -⟩ := NTriples.lines_written hpasses
    exact ⟨_, bind_eq_ok.2 ⟨lines, hlines, rfl⟩⟩
  | turtle => exact Turtle.exists_write hpasses hlists

/-! ### Errors of documents -/

/-- The fault is about what stands at an offset into a text. -/
def ReadFault.IsAt (text : String) (offset : Nat) : ReadFault → Prop
  | .lexical fault =>
    (Token.scanAll text).fault = some ⟨Place.ofOffset text.toList offset, fault⟩
  | .grammar _ token =>
    token ∈ (Token.scanAll text).tokens ∧ token.StandsAt text.toList offset
  | .resolution fault => ∃ token ∈ (Token.scanAll text).tokens,
    token.StandsAt text.toList offset ∧ fault.Concerns token.lexeme

/-- The error is in the given source, at an offset into its text. -/
structure ReadError.Located (source : SourceName) (text : String) (error : ReadError) : Prop where
  source : error.source = source
  place : ∃ offset ≤ text.toList.length, error.place = Place.ofOffset text.toList offset ∧
    error.fault.IsAt text offset

theorem Refusal.IsGrammar.liesIn {refusal : Refusal} (h : refusal.IsGrammar) (l : Lexeme) :
    refusal.LiesIn l := by
  cases refusal with
  | grammar fault => trivial
  | resolution _ | invalid _ => exact h.elim

theorem located_of_lexical {error : LexicalError} (h : (Token.scanAll text).fault = some error) :
    ReadError.Located source text ⟨source, error.place, .lexical error.fault⟩ := by
  obtain ⟨offset, hoffset, hplace⟩ := (Token.located_scanAll text).fault error h
  exact ⟨rfl, offset, hoffset, hplace, by rw [ReadFault.IsAt, ← hplace, h]⟩

/-- A refusal that lies in a token is an error where the token begins. -/
theorem located_of_refusal (source : SourceName) {token : Token} {refusal : Refusal}
    (htoken : token ∈ (Token.scanAll text).tokens) (h : refusal.LiesIn token.lexeme) :
    ∃ error, ReadFailure.ofRefusal source token refusal = .document error ∧
      error.Located source text ∧
      (refusal.IsGrammar → ∀ fault, error.fault ≠ .resolution fault) := by
  obtain ⟨offset, hstands⟩ := (Token.located_scanAll text).tokens token htoken
  cases refusal with
  | grammar fault =>
    exact ⟨_, rfl, ⟨rfl, offset, hstands.1, hstands.2.1, htoken, hstands⟩, by simp⟩
  | resolution fault =>
    exact ⟨_, rfl, ⟨rfl, offset, hstands.1, hstands.2.1, token, htoken, hstands, h⟩, False.elim⟩
  | invalid fault => exact h.elim

theorem ReadFailure.StemsFrom.located {blames : Lexeme → Refusal → Prop} {failure : ReadFailure}
    (h : failure.StemsFrom blames source (Token.scanAll text))
    (hblames : ∀ {l refusal}, blames l refusal → refusal.LiesIn l) :
    ∃ error, failure = .document error ∧ error.Located source text ∧
      ((∀ {l refusal}, blames l refusal → refusal.IsGrammar) →
        ∀ fault, error.fault ≠ .resolution fault) := by
  obtain ⟨error, herror, rfl⟩ | ⟨token, htoken, refusal, hrefusal, rfl⟩ := h
  · exact ⟨_, rfl, located_of_lexical herror, by simp⟩
  · obtain ⟨error, he, hlocated, hgrammar⟩ :=
      located_of_refusal source htoken (hblames hrefusal)
    exact ⟨error, he, hlocated, fun hall => hgrammar (hall hrefusal)⟩

/-! ### Documents of either format -/

namespace Format

/-- The base that is in force at first. Documents of N-Triples have none. -/
def initialBase (base : Option String) : Format → Option Iri
  | .nTriples => none
  | .turtle => base.map Iri.mk

/-- A base is refused only where it is the empty text. -/
theorem read_turtle {base : Option String} (hbase : base ≠ some "") :
    Format.turtle.read text source (base.map .text) =
      Turtle.read text source (initialBase base .turtle) := by
  cases base with
  | none => rfl
  | some value =>
    have hvalue : Iri.make (.text value) = .ok ⟨value⟩ :=
      if_neg fun he => hbase (congrArg some he)
    have hmap : (some (Plain.text value)).mapM Iri.make = some <$> Iri.make (.text value) := rfl
    rw [hvalue] at hmap
    simp only [Format.read, Option.map_some, hmap, initialBase]
    rfl

/-- What is not read has one error with a place in the text, whose fault is about what stands
there. Lines of N-Triples have no names to resolve. -/
theorem read_located (format : Format) (text : String) (source : SourceName)
    {base : Option String} (hbase : base ≠ some "") :
    (∃ g, format.read text source (base.map .text) = .ok g) ∨
      ∃ error, format.read text source (base.map .text) = .error (.document error) ∧
        error.Located source text ∧
        (format = .nTriples → ∀ fault, error.fault ≠ .resolution fault) := by
  cases format with
  | nTriples =>
    have hread := NTriples.answers_read text source
    simp only [Format.read]
    cases hr : NTriples.read text source with
    | ok g => exact .inl ⟨g, rfl⟩
    | error failure =>
      have hstems : failure.StemsFrom (fun _ => Refusal.IsGrammar) source (Token.scanAll text) := by
        rwa [hr] at hread
      obtain ⟨error, rfl, hlocated, hgrammar⟩ := hstems.located fun h => h.liesIn _
      exact .inr ⟨error, rfl, hlocated, fun _ => hgrammar id⟩
  | turtle =>
    have hread := Turtle.answers_read text source (initialBase base .turtle)
    rw [read_turtle hbase]
    cases hr : Turtle.read text source (initialBase base .turtle) with
    | ok g => exact .inl ⟨g, rfl⟩
    | error failure =>
      have hstems : failure.StemsFrom Refusal.LiesIn source (Token.scanAll text) := by
        rwa [hr] at hread
      obtain ⟨error, rfl, hlocated, -⟩ := hstems.located id
      exact .inr ⟨error, rfl, hlocated, by simp⟩

/-- A relative name without a base is at fault where it stands. -/
theorem read_located_relative :
    let text := "@prefix e: <urn:e#> .\n  e:s e:p <o> ."
    ∃ error, Format.turtle.read text (.text "document") ((none : Option String).map .text) =
        .error (.document error) ∧
      error.Located (.text "document") text ∧ error.place = ⟨2, 11⟩ := by
  intro text
  let outcome := Format.turtle.read text (.text "document") ((none : Option String).map .text)
  have hplace : (match outcome with
      | .error (.document error) => some error.place
      | _ => none) = some ⟨2, 11⟩ := by decide +kernel
  obtain ⟨g, hg⟩ | ⟨error, he, hlocated, -⟩ :=
    @read_located .turtle text (.text "document") none (by decide)
  · simp [outcome, hg] at hplace
  · exact ⟨error, he, hlocated, by simpa [outcome, he] using hplace⟩

end Format

end Rdf

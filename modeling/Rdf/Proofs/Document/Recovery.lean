import Rdf.Proofs.Document.Outcome
import Rdf.Proofs.Token.LineEnds
import Rdf.Proofs.Turtle.Denotation
import Rdf.Proofs.Turtle.Labelling

/-!
Written documents that are read again.

What has been read can be written, and what is written for it can be read without a base, up to the
names of blank nodes. Only Turtle has exceptions: a base that is not absolute is written as it is,
and lists are written as deep as they are.
-/

namespace Rdf

variable {text : String} {source : SourceName} {base : Option Iri} {g : Graph}

/-! ### Lexemes of texts that are read -/

/-- A text reads as one row of lexemes only. -/
theorem Lexes.unique {afterString : Bool} {text : List Char} {lexemes lexemes' : List Lexeme}
    (h : Lexes afterString text lexemes) (h' : Lexes afterString text lexemes') :
    lexemes = lexemes' := by
  obtain ⟨tokens, hscan, rfl⟩ := h.scanFrom .start
  obtain ⟨tokens', hscan', rfl⟩ := h'.scanFrom .start
  exact congrArg (fun found => found.tokens.map (·.lexeme)) (hscan.symm.trans hscan')

/-- The last lexeme of a text, and no other, is its end. -/
theorem Lexes.ends {afterString : Bool} {text : List Char} {lexemes : List Lexeme}
    (h : Lexes afterString text lexemes) :
    ∃ before, lexemes = before ++ [.eof] ∧ ∀ l ∈ before, l ≠ .eof := by
  induction h with
  | eof => exact ⟨[], rfl, nofun⟩
  | cons _ hscan _ ih =>
    obtain ⟨before, rfl, hbefore⟩ := ih
    exact ⟨_ :: before, rfl, List.forall_mem_cons.2 ⟨Lexeme.ne_eof_of_scan hscan, hbefore⟩⟩

namespace Turtle

/-- A text is read where it reads as lexemes that the reader takes. -/
theorem read_eq_ok_iff : read text source base = .ok g ↔
    ∃ lexemes s, Lexes false text.toList lexemes ∧
      machine.runLexemes { graph := { base } } lexemes = .ok s ∧ s.graph? = some g := by
  constructor
  · intro h
    obtain ⟨s, hrun, hgraph⟩ := machine.read_eq_ok_iff.1 h
    have hend : s.expecting = .nothing ∧ s.graph = g := by
      simpa [machine, State.graph?] using hgraph
    have hfault : (Token.scanAll text).fault = none := by
      -- Before a fault there is no end of the text, without which the machine does not end.
      refine Classical.byContradiction fun hfault => ?_
      exact State.live_of_run hrun (Token.eof_not_mem_of_fault hfault)
        (by simp) hend.1
    exact ⟨_, s, Lexes.of_scanFrom hfault, hrun, hgraph⟩
  · rintro ⟨lexemes, s, hlexes, hrun, hgraph⟩
    obtain ⟨tokens, hscan, rfl⟩ := hlexes.scanFrom .start
    rw [read, readTokens, Token.scanAll, hscan]
    exact machine.read_eq_ok_iff.2 ⟨s, hrun, hgraph⟩

/-- A text that is read is a document of the grammar, which leaves the base and the namespaces of
the graph. -/
theorem exists_document (h : read text source base = .ok g) :
    ∃ document : Document Unit, Lexes false text.toList (document.lexemes ++ [.eof]) ∧
      document.InScope ⟨base, []⟩ ∧ document.IsShallow ∧
        Scope.ofGraph g = document.scopeAfter ⟨base, []⟩ := by
  obtain ⟨lexemes, s, hlexes, hrun, hgraph⟩ := read_eq_ok_iff.1 h
  obtain ⟨before, rfl, hbefore⟩ := hlexes.ends
  obtain ⟨document, rfl, hscope, hshallow⟩ : Statements ⟨base, []⟩ before :=
    State.remains_of_run hbefore hrun rfl
  have hproper : ∀ l ∈ document.lexemes, l.Proper := fun l hl =>
    proper_of_lexes hlexes l (List.mem_append_left _ hl)
  obtain ⟨s', _, hrun', houtcome⟩ := document.runs base hscope hproper hshallow
  obtain rfl := Except.ok.inj (hrun'.symm.trans hrun)
  obtain rfl : s'.graph = g := Option.some.inj hgraph
  exact ⟨document, hlexes, hscope, hshallow, houtcome.scope⟩

theorem Document.nodup_scopeAfter {ν : Type} (document : Document ν) {scope : Scope}
    (h : (scope.spaces.map (·.1)).Nodup) :
    ((document.scopeAfter scope).spaces.map (·.1)).Nodup := by
  induction document generalizing scope with
  | nil => exact h
  | cons statement document ih =>
    refine ih ?_
    cases statement with
    | space => exact nodup_bindIn h _ _
    | base | triples | lone => exact h

/-- No label is bound twice in a graph that has been read. -/
theorem definite_of_read (h : read text source base = .ok g) : Definite g := by
  obtain ⟨document, -, -, -, hscope⟩ := exists_document h
  have hnodup : ((document.scopeAfter ⟨base, []⟩).spaces.map (·.1)).Nodup :=
    document.nodup_scopeAfter List.nodup_nil
  rw [← hscope] at hnodup
  exact ⟨hnodup, fun t ht => ((sound_of_read h).triples t ht).absolute⟩

/-! ### Texts that are written -/

variable {options : Options}

/-- What is written for the graph can be read without a base: the base that is written is absolute
and lists are not nested too deep. -/
structure Recoverable (options : Options) (g : Graph) : Prop where
  base : ∀ iri ∈ writtenBase options g, iri.isAbsolute = true
  nest : ∀ row, IsNest (options.chains g.triples) row → row.length ≤ maxNesting

/-- What is written for a graph is read only if the graph is recoverable. -/
theorem recoverable_of_read (h : Definite g) (hwrite : write g options = .ok text) {result : Graph}
    (hread : read text source none = .ok result) : Recoverable options g := by
  obtain ⟨document, hlexes, hdepth, -, body, rfl⟩ := write_outlines h hwrite
  obtain ⟨accepted, haccepted, hscope, hshallow, -⟩ := exists_document hread
  have hlexemes := List.append_cancel_right (hlexes.unique haccepted)
  obtain ⟨hinScope, hflat⟩ := Statements.of_lexemes ⟨accepted, rfl, hscope, hshallow⟩ hlexemes
  refine ⟨fun iri hiri => ?_, (hdepth maxNesting).1 hflat⟩
  obtain ⟨hnames, -⟩ : (∀ n ∈ (Statement.base "@base" true iri.value : Statement String).names,
      n.InScope ⟨none, []⟩) ∧ _ := by
    rw [Option.mem_def.1 hiri] at hinScope
    exact hinScope
  exact (hnames (.iri iri.value) List.mem_cons_self).resolve_right (by simp)

/-- A text that depicts triples is read as them, up to the names of blank nodes. -/
theorem Depicts.read {document : Document String} {scope : Scope} {triples : List Triple}
    (h : Depicts text.toList document scope triples) (hformed : ∀ t ∈ triples, t.WellFormed)
    (source : SourceName) :
    ∃ result, read text source none = .ok result ∧ Isomorphic triples result.triples := by
  have hproper : ∀ l ∈ document.lexemes, l.Proper := fun l hl =>
    proper_of_lexes h.lexes l (List.mem_append_left _ hl)
  obtain ⟨s, hrun, hisomorphic, -⟩ := document.runs_isomorphic none h.inScope hproper h.shallow
    h.marks h.labels fun t ht => hformed t (h.triples.mem_iff.1 ht)
  refine ⟨s.graph, read_eq_ok_iff.2 ⟨_, _, h.lexes, hrun, rfl⟩, ?_⟩
  exact (Isomorphic.congr (fun t => h.triples.mem_iff.symm) fun _ => Iff.rfl).2 hisomorphic

/-- What is written for a graph is read as the graph, up to the names of blank nodes, just where the
graph is recoverable. -/
theorem read_written_iff (h : Definite g)
    (hspaces : ∀ space ∈ g.namespaces, space.2.isAbsolute = true)
    (hwrite : write g options = .ok text) (source : SourceName) :
    (∃ result, read text source none = .ok result ∧ Isomorphic g.triples result.triples) ↔
      Recoverable options g := by
  constructor
  · rintro ⟨result, hread, -⟩
    exact recoverable_of_read h hwrite hread
  · intro hrecoverable
    have hself : SelfContained options g := by
      refine ⟨h.labels, h.triples, hrecoverable.base, fun space hspace => hspaces space ?_,
        hrecoverable.nest⟩
      rw [writtenSpaces] at hspace
      split at hspace
      · exact List.mem_of_mem_filter hspace
      · cases hspace
    obtain ⟨document, hdepicts⟩ := write_depicts hself hwrite
    exact hdepicts.read (write_eq_ok hwrite).1 source

end Turtle

/-- The lines of a graph that can be written are read as its triples. -/
theorem NTriples.read_written (h : ∀ t ∈ g.triples, t.Sound) (hwrite : write g = .ok text)
    (source : SourceName) :
    ∃ result, read text source = .ok result ∧ Isomorphic g.triples result.triples := by
  have hvalid : ∀ t ∈ g.triples, t.Valid := fun t ht => (h t ht).valid
  obtain ⟨lines, hlines, -, hreads⟩ := lines_written fun t ht => ⟨hvalid t ht, (h t ht).writable⟩
  obtain rfl : String.ofList lines.flatten = text :=
    Except.ok.inj ((bind_eq_ok.2 ⟨lines, hlines, rfl⟩ : write g = _).symm.trans hwrite)
  obtain ⟨result, hrun, hresult⟩ :=
    lines_read (fun t ht => ⟨hvalid t ht, (h t ht).absolute⟩) {}
  obtain ⟨tokens, hscan, hlexemes⟩ := hreads.scanAll
  refine ⟨result, ?_, .of_mem_iff fun t => ?_⟩
  · rw [read, readTokens, hscan]
    refine machine.read_eq_ok_iff.2 ⟨⟨result, .nothing⟩, ?_, rfl⟩
    rw [hlexemes, machine.runLexemes_append_of_ok hrun]
    rfl
  · rw [hresult, Graph.triples_addAll fun t ht => (hvalid t ht).wellFormed, List.mem_eraseDups]

/-! ### Either format -/

namespace Format

theorem text_of_make {value : Plain} {iri : Iri} (h : Iri.make value = .ok iri) :
    value = .text iri.value := by
  cases value with
  | text value =>
    simp only [Iri.make, Iri.ofText] at h
    split at h
    · cases h
    · exact congrArg Plain.text (congrArg Iri.value (Except.ok.inj h))
  | _ => cases h

theorem turtle_read_eq_ok_iff {base : Option Plain} :
    turtle.read text source base = .ok g ↔
      ∃ initial, base.mapM Iri.make = .ok initial ∧ Turtle.read text source initial = .ok g := by
  simp only [Format.read]
  cases base.mapM Iri.make <;> simp

/-- What has been read in either format has been read as Turtle, with the same base or none. -/
theorem exists_turtle {format : Format} {base : Option Plain}
    (h : format.read text source base = .ok g) :
    ∃ initial, Turtle.read text source initial = .ok g ∧
      ∀ iri ∈ initial, base = some (.text iri.value) := by
  cases format with
  | nTriples =>
    obtain ⟨hturtle, hbase, -⟩ := NTriples.read_inTurtle h source none
    have hsame : g.withBase none = g := hbase ▸ rfl
    exact ⟨none, hsame ▸ hturtle, nofun⟩
  | turtle =>
    obtain ⟨initial, hinitial, hturtle⟩ := turtle_read_eq_ok_iff.1 h
    refine ⟨initial, hturtle, fun iri hiri => ?_⟩
    obtain rfl := Option.mem_def.1 hiri
    cases base with
    | none => cases hinitial
    | some value =>
      have hmap : (some value).mapM Iri.make = some <$> Iri.make value := rfl
      cases hmake : Iri.make value with
      | error fault => simp [hmap, hmake] at hinitial
      | ok made =>
        obtain rfl : made = iri := by simpa [hmap, hmake] using hinitial
        rw [text_of_make hmake]

/-- The base of a graph that has been read is absolute or the one that it was read with. -/
theorem base_of_read {format : Format} {base : Option Plain}
    (h : format.read text source base = .ok g) {iri : Iri} (hiri : iri ∈ g.base) :
    iri.isAbsolute = true ∨ base = some (.text iri.value) := by
  obtain ⟨initial, hturtle, hinitial⟩ := exists_turtle h
  obtain hsame | ⟨found, hfound, habsolute⟩ := (Turtle.sound_of_read hturtle).base
  · exact .inr (hinitial iri (hsame ▸ hiri))
  · obtain rfl := Option.some.inj (hfound.symm.trans hiri)
    exact .inl habsolute

/-- What has been read and then written in a format is read again without a base, up to the names
of blank nodes. Turtle is the exception where the graph is not recoverable. -/
theorem read_written_iff {format other : Format} {base : Option Plain} {input : String}
    {options : Turtle.Options} (hread : format.read input source base = .ok g)
    (hwrite : other.write g options = .ok text) (source : SourceName) :
    (∃ result, other.read text source none = .ok result ∧
        Isomorphic g.triples result.triples) ↔
      (other = .turtle → Turtle.Recoverable options g) := by
  obtain ⟨initial, hturtle, -⟩ := exists_turtle hread
  have hsound := Turtle.sound_of_read hturtle
  cases other with
  | nTriples =>
    exact iff_of_true (NTriples.read_written hsound.triples hwrite source) nofun
  | turtle =>
    have hspaces : ∀ space ∈ g.namespaces, space.2.isAbsolute = true := fun space hspace =>
      (hsound.spaces space hspace).2
    exact (Turtle.read_written_iff (Turtle.definite_of_read hturtle) hspaces hwrite source).trans
      ⟨fun h _ => h, fun h => h rfl⟩

end Format

end Rdf

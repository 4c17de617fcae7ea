import Rdf.Proofs.Turtle.Acceptance
import Rdf.Proofs.Turtle.Derivations
import Rdf.Proofs.Turtle.Renaming

/-!
What is read from a document is what the document means.

The triples of a document follow from its derivation, in which labels and marks stand for
themselves. Those of the graph that is read are the same, but for the names of the nodes.
-/

namespace Rdf.Turtle

variable {ν : Type} {i : Interpretation ν} {part : Part} {subject predicate : Term}

/-! ### Triples of the data model -/

theorem chainTriples_wellFormed {links : List (Term × Term)}
    (h : ∀ link ∈ links, link.1.isResource = true ∧ link.2.isTerm = true) :
    ∀ t ∈ chainTriples links, t.WellFormed := by
  refine forall_mem_chainTriples (·.isResource = true) (·.isTerm = true)
    (fun hcell hitem => ⟨hcell, rfl, hitem⟩) ?_ h
  rintro cell next hcell (hnext | rfl)
  · exact ⟨hcell, rfl, Term.isTerm_of_isResource hnext⟩
  · exact ⟨hcell, rfl, rfl⟩

namespace Phrase

theorem node_isResource (p : Phrase ν .resource) : (p.node i).isResource = true := by
  cases p with
  | collection items => cases h : items.cells <;> simp [node, h, Term.isResource]
  | _ => rfl

theorem term_isTerm (p : Phrase ν .object) : (p.term i).isTerm = true := by
  cases p with
  | resource p => exact Term.isTerm_of_isResource p.node_isResource
  | constant _ => rfl

theorem itemTerms_isTerm (p : Phrase ν part) : ∀ t ∈ p.itemTerms i, t.isTerm = true := by
  induction p with
  | item _ first _ _ ih => exact List.forall_mem_cons.2 ⟨first.term_isTerm, ih⟩
  | _ => simp [itemTerms]

/-- Only objects need a predicate. -/
theorem triples_wellFormed (p : Phrase ν part) (hsubject : subject.isResource = true)
    (hpredicate : part = .objects → predicate.isIri = true) :
    ∀ t ∈ p.triples i subject predicate, t.WellFormed := by
  induction p generalizing subject predicate with
  | name _ | blank _ | emptyBracket _ | constant _ | noItems | noObjects | noMore =>
    simp [triples]
  | bracket mark content ih => exact ih rfl (by simp)
  | collection items ih =>
    refine List.forall_mem_append.2 ⟨ih hsubject (by simp), chainTriples_wellFormed ?_⟩
    intro link hlink
    obtain ⟨hcell, hitem⟩ := List.of_mem_zip hlink
    obtain ⟨cell, -, he⟩ := List.mem_map.1 hcell
    exact ⟨he ▸ rfl, items.itemTerms_isTerm _ hitem⟩
  | resource p ih => exact ih hsubject (by simp)
  | item _ first rest ih1 ih2 =>
    exact List.forall_mem_append.2 ⟨ih1 hsubject (by simp), ih2 hsubject (by simp)⟩
  | nextObject first rest ih1 ih2 =>
    have hown : Triple.WellFormed ⟨subject, predicate, first.term i⟩ :=
      ⟨hsubject, hpredicate rfl, first.term_isTerm⟩
    exact List.forall_mem_append.2
      ⟨ih1 hsubject (by simp), List.forall_mem_cons.2 ⟨hown, ih2 hsubject hpredicate⟩⟩
  | predicates verb first rest more ih1 ih2 ih3 =>
    have hown : Triple.WellFormed ⟨subject, .iri (verb.iri i), first.term i⟩ :=
      ⟨hsubject, rfl, first.term_isTerm⟩
    have hobjects := @ih2 subject (.iri (verb.iri i)) hsubject fun _ => rfl
    exact List.forall_mem_append.2
      ⟨List.forall_mem_append.2 ⟨ih1 hsubject (by simp), List.forall_mem_cons.2 ⟨hown, hobjects⟩⟩,
        ih3 hsubject (by simp)⟩
  | semicolon rest ih => exact ih hsubject (by simp)
  | nextPredicates content ih => exact ih hsubject (by simp)

end Phrase

variable {label : String → String} {node : ν → String}

theorem Statement.added_wellFormed (statement : Statement ν) (scope : Scope) :
    ∀ t ∈ statement.added scope label node, t.WellFormed := by
  cases statement with
  | space _ _ _ _ | base _ _ _ => simp [added]
  | triples subject content =>
    exact List.forall_mem_append.2
      ⟨subject.triples_wellFormed subject.node_isResource (by simp),
        content.triples_wellFormed subject.node_isResource (by simp)⟩
  | lone mark content => exact content.triples_wellFormed rfl (by simp)

theorem Document.triples_wellFormed (document : Document ν) (scope : Scope) :
    ∀ t ∈ document.triples label node scope, t.WellFormed := by
  induction document generalizing scope with
  | nil => simp [triples]
  | cons statement document ih =>
    exact List.forall_mem_append.2 ⟨statement.added_wellFormed scope, ih _⟩

/-! ### Documents that are read -/

/-- A document with the lexemes of one that is accepted is in scope and not too deep. -/
theorem Statements.of_lexemes {scope : Scope} {lexemes : List Lexeme}
    (h : Statements scope lexemes) {document : Document ν} (hlexemes : document.lexemes = lexemes) :
    document.InScope scope ∧ document.IsShallow := by
  obtain ⟨accepted, haccepted, hscope, hshallow⟩ := h
  have hsame : Document.erase document = Document.erase accepted :=
    Document.erase_eq_of_lexemes (hlexemes.trans haccepted.symm)
  have hin := (Document.inScope_erase accepted scope).2 hscope
  have hdepth := (Document.isShallow_erase accepted).2 hshallow
  rw [← hsame] at hin hdepth
  exact ⟨(Document.inScope_erase document scope).1 hin,
    (Document.isShallow_erase document).1 hdepth⟩

/-- The lexemes of a graph that is read have a derivation. Whichever is taken, the triples of the
graph are the triples that it means under a renaming that keeps labels and marks apart, and the base
and the namespaces are those in force at its end. -/
theorem readTokens_means (source : SourceName) (base : Option Iri) {tokens : List Token}
    {last : Token} (hlast : last.lexeme = .eof)
    (htokens : ∀ token ∈ tokens, token.lexeme ≠ .eof ∧ IsScanned token.lexeme) {g : Graph}
    (h : readTokens source base ⟨tokens ++ [last], none⟩ = .ok g) :
    (∃ document, Derives document (tokens.map (·.lexeme))) ∧
      ∀ document, Derives document (tokens.map (·.lexeme)) →
        (∃ f, Set.InjOn f {nodeId | nodeId ∈ document.labels ∨ nodeId ∈ document.marks} ∧
          ∀ t, t ∈ g.triples ↔ ∃ u ∈ document.triples id id ⟨base, []⟩, u.rename f = t) ∧
        g.base = (document.scopeAfter ⟨base, []⟩).base ∧
        g.namespaces = (document.scopeAfter ⟨base, []⟩).spaces := by
  have hmap : (tokens ++ [last]).map (·.lexeme) = tokens.map (·.lexeme) ++ [.eof] := by
    simp [hlast]
  obtain ⟨s, hrun, hresult⟩ := machine.read_eq_ok_iff.1 h
  rw [hmap] at hrun
  have haccepted : Statements ⟨base, []⟩ (tokens.map (·.lexeme)) := by
    refine State.remains_of_run (fun l hl => ?_) hrun rfl
    obtain ⟨token, htoken, rfl⟩ := List.mem_map.1 hl
    exact (htokens token htoken).1
  refine ⟨?_, fun document hderives => ?_⟩
  · obtain ⟨document, hlexemes, -⟩ := haccepted
    rw [← hlexemes]
    exact Derives.exists_of_lexemes document
  · obtain ⟨hscope, hshallow⟩ := haccepted.of_lexemes hderives.lexemes
    have hproper : ∀ l ∈ document.lexemes, l.Proper := by
      intro l hl
      rw [hderives.lexemes] at hl
      obtain ⟨token, htoken, rfl⟩ := List.mem_map.1 hl
      exact (htokens token htoken).2.proper
    obtain ⟨read, f, hread, hinj, hmem, hafter⟩ := document.runs_renamed base hscope hproper
      hshallow hderives.marks hderives.labels (document.triples_wellFormed _)
    rw [hderives.lexemes] at hread
    obtain rfl := Except.ok.inj (hrun.symm.trans hread)
    obtain rfl : read.graph = g := Option.some.inj hresult
    exact ⟨⟨f, hinj, hmem⟩, congrArg Scope.base hafter, congrArg Scope.spaces hafter⟩

/-- A label that the reader would mint, a bracket and a list, under a base. -/
theorem readTokens_means_list :
    let token (lexeme : Lexeme) : Token := ⟨lexeme, .start⟩
    let tokens := [.directive ⟨.base, "@base", true⟩, .iri "http://a/b", .punct .dot,
      .blank "auto0", .a, .punct .openBracket, .iri "p", .punct .openParen, .number .integer "1",
      .punct .closeParen, .punct .closeBracket, .punct .dot].map token
    let number : Term := .literal ⟨"1", none, some Vocabulary.integer⟩
    let meant : List Triple := [⟨.blank "cell", .iri Vocabulary.first, number⟩,
      ⟨.blank "cell", .iri Vocabulary.rest, .iri Vocabulary.nil⟩,
      ⟨.blank "bracket", .iri ⟨"http://a/p"⟩, .blank "cell"⟩,
      ⟨.blank "auto0", .iri Vocabulary.type, .blank "bracket"⟩]
    ∃ g f, readTokens (.text "tokens") none ⟨tokens ++ [token .eof], none⟩ = .ok g ∧
      Set.InjOn f {nodeId | nodeId ∈ ["auto0"] ∨ nodeId ∈ ["bracket", "cell"]} ∧
      (∀ t, t ∈ g.triples ↔ ∃ u ∈ meant, u.rename f = t) ∧ g.base = some ⟨"http://a/b"⟩ := by
  intro token tokens number meant
  let texts := ["@base", "<http://a/b>", ".", "_:auto0", "a", "[", "<p>", "(", "1", ")", "]"]
  have htexts : ∀ token ∈ tokens, token.lexeme ≠ .eof ∧ ∃ text ∈ texts,
      (Lexeme.scan false text.toList).toOption.map (·.1) = some token.lexeme := by decide +kernel
  have hscanned : ∀ token ∈ tokens, token.lexeme ≠ .eof ∧ IsScanned token.lexeme := by
    intro token htoken
    obtain ⟨hne, text, -, hscan⟩ := htexts token htoken
    exact ⟨hne, .of_text text hscan⟩
  let list : Phrase String .resource :=
    .collection (.item "cell" (.constant (.number .integer "1")) .noItems)
  let content : Phrase String .predicates :=
    .predicates (.name (.iri "p")) (.resource list) .noObjects .noMore
  let document : Document String := [.base "@base" true "http://a/b",
    .triples (.blank "auto0")
      (.predicates .a (.resource (.bracket "bracket" content)) .noObjects .noMore)]
  have hderives : Derives document (tokens.map (·.lexeme)) :=
    ⟨rfl, by decide +kernel, by decide +kernel⟩
  have hok : (readTokens (.text "tokens") none ⟨tokens ++ [token .eof], none⟩).toOption.isSome =
      true := by decide +kernel
  cases hread : readTokens (.text "tokens") none ⟨tokens ++ [token .eof], none⟩ with
  | error failure => simp [hread, Except.toOption] at hok
  | ok g =>
    obtain ⟨-, hmeans⟩ := readTokens_means (.text "tokens") none rfl hscanned hread
    obtain ⟨⟨f, hinj, hmem⟩, hbase, -⟩ := hmeans document hderives
    have htriples : document.triples id id ⟨none, []⟩ = meant := by decide +kernel
    rw [htriples] at hmem
    have hafter : (document.scopeAfter ⟨none, []⟩).base = some ⟨"http://a/b"⟩ := by decide +kernel
    exact ⟨g, f, rfl, hinj, hmem, hbase.trans hafter⟩

end Rdf.Turtle

import Rdf.Proofs.Token.Forms
import Rdf.Proofs.Turtle.Statements

/-!
The reader of Turtle accepts documents only.

`Remains` says what a state still demands of the lexemes. The state behind the whole document
demands nothing, and each step back puts the lexeme that it reads in front of what is demanded
behind it.
-/

namespace Rdf.Turtle

open Refusal

variable {s s1 : State} {l : Lexeme} {rest : List Lexeme} {target : Target} {part : Part}

/-! ### What states demand -/

/-- The phrase can be read in a scope, inside of some brackets and parentheses. -/
structure Phrase.Fits (p : Phrase Unit part) (scope : Scope) (depth : Nat) : Prop where
  names : ∀ n ∈ p.names, n.InScope scope
  shallow : p.depth ≤ maxNesting - depth

/-- The lexemes of statements in a scope. -/
def Statements (scope : Scope) (lexemes : List Lexeme) : Prop :=
  ∃ document : Document Unit, document.lexemes = lexemes ∧ document.InScope scope ∧
    document.IsShallow

/-- What ends a row of phrases. -/
inductive Ending where
  | statement
  | emptyBracket
  | bracket
  | collection

def Ending.mark : Ending → Punct
  | statement => .dot
  | emptyBracket => .closeBracket
  | bracket => .closeBracket
  | collection => .closeParen

/-- What ends the predicates of a subject. -/
def Ending.EndsSubject (ending : Ending) : Prop := ending = statement ∨ ending = bracket

/-- What is demanded once a term has been handed over to a target. -/
def Continues (scope : Scope) (depth : Nat) (closes : Ending → List Lexeme → Prop) :
    Target → Bool → List Lexeme → Prop
  | .subject, mayEnd, lexemes => ∃ (ending : Ending) (rest : List Lexeme),
    ((∃ p : Phrase Unit .predicates, p.Fits scope depth ∧
      lexemes = p.lexemes ++ .punct ending.mark :: rest) ∨
        mayEnd = true ∧ lexemes = .punct ending.mark :: rest) ∧
      ending.EndsSubject ∧ closes ending rest
  | .object _ _, _, lexemes => ∃ (objects : Phrase Unit .objects) (more : Phrase Unit .more)
    (ending : Ending) (rest : List Lexeme), objects.Fits scope depth ∧ more.Fits scope depth ∧
      lexemes = objects.lexemes ++ more.lexemes ++ .punct ending.mark :: rest ∧
      ending.EndsSubject ∧ closes ending rest
  | .item _, _, lexemes => ∃ (items : Phrase Unit .items) (rest : List Lexeme),
    items.Fits scope depth ∧ lexemes = items.lexemes ++ .punct .closeParen :: rest ∧
      closes .collection rest

/-- What is demanded behind the end of the innermost row, where some targets wait. -/
def Closes (scope : Scope) : List Target → Ending → List Lexeme → Prop
  | [], .statement, rest => Statements scope rest
  | target :: waiting, .emptyBracket, rest =>
    Continues scope waiting.length (Closes scope waiting) target false rest
  | target :: waiting, .bracket, rest =>
    Continues scope waiting.length (Closes scope waiting) target true rest
  | target :: waiting, .collection, rest =>
    Continues scope waiting.length (Closes scope waiting) target false rest
  | _, _, _ => False

namespace State

def scope (s : State) : Scope := .ofGraph s.graph

/-- What is demanded behind a term for a target. -/
def Goes (s : State) (target : Target) (mayEnd : Bool) (rest : List Lexeme) : Prop :=
  Continues s.scope s.waiting.length (Closes s.scope s.waiting) target mayEnd rest

/-- What is demanded where a directive has its identifier. -/
def DemandsIri (s : State) (word : Directive) (after : Iri → Scope) (lexemes : List Lexeme) :
    Prop :=
  ∃ value rest, lexemes = .iri value :: (directiveEnd word.isDotted ++ rest) ∧
    (Name.iri value).InScope s.scope ∧ Statements (after (s.scope.iri (.iri value))) rest

/-- What a state demands of the lexemes up to the end of the document. -/
def Remains (s : State) (lexemes : List Lexeme) : Prop :=
  match s.expecting with
  | .term .subject => s.waiting = [] → Statements s.scope lexemes
  | .term (.object subject predicate) => ∃ (p : Phrase Unit .object) (rest : List Lexeme),
    p.Fits s.scope s.waiting.length ∧ lexemes = p.lexemes ++ rest ∧
      s.Goes (.object subject predicate) false rest
  | .term (.item items) => s.Goes (.item items) false lexemes
  | .label word => s.waiting = [] → ∃ label rest, lexemes = .name label "" :: rest ∧
    s.DemandsIri word (fun iri => { s.scope with
      spaces := Graph.bindIn label iri s.scope.spaces }) rest
  | .space word label => s.waiting = [] → s.DemandsIri word (fun iri => { s.scope with
      spaces := Graph.bindIn label iri s.scope.spaces }) lexemes
  | .base word => s.waiting = [] → s.DemandsIri word (fun iri => { s.scope with base := iri })
    lexemes
  | .directiveEnd _ => s.waiting = [] → ∃ rest, lexemes = .punct .dot :: rest ∧
    Statements s.scope rest
  | .predicate _ => s.Goes .subject false lexemes
  | .anyPredicate _ => s.Goes .subject true lexemes
  | .firstPredicate _ =>
    (∃ (content : Phrase Unit .predicates) (ending : Ending) (rest : List Lexeme),
      content.Fits s.scope s.waiting.length ∧
      lexemes = content.lexemes ++ .punct ending.mark :: rest ∧
      ending.EndsSubject ∧ Closes s.scope s.waiting ending rest) ∨
    ∃ rest, lexemes = .punct .closeBracket :: rest ∧ Closes s.scope s.waiting .emptyBracket rest
  | .more subject predicate => s.Goes (.object subject predicate) false lexemes
  | .nextPredicate _ => ∃ (ending : Ending) (rest : List Lexeme),
    ((∃ p : Phrase Unit .predicates, p.Fits s.scope s.waiting.length ∧
      lexemes = p.lexemes ++ .punct ending.mark :: rest) ∨
      ∃ p : Phrase Unit .more, p.Fits s.scope s.waiting.length ∧
        lexemes = p.lexemes ++ .punct ending.mark :: rest) ∧
      ending.EndsSubject ∧ Closes s.scope s.waiting ending rest
  | .suffix _ target => ∃ (suffix : Suffix) (rest : List Lexeme),
    (∀ n ∈ suffix.names, n.InScope s.scope) ∧ lexemes = suffix.lexemes ++ rest ∧
      s.Goes target false rest
  | .datatype _ target => ∃ (n : Name) (rest : List Lexeme), n.InScope s.scope ∧
    lexemes = n.lexeme :: rest ∧ s.Goes target false rest
  | .nothing => True

/-! ### Steps back -/

/-- A state with the same scope and the same targets that wait demands the same. -/
theorem Goes.congr (hscope : s1.scope = s.scope) (hwaiting : s1.waiting = s.waiting)
    {mayEnd : Bool} (h : s1.Goes target mayEnd rest) : s.Goes target mayEnd rest := by
  rwa [Goes, hscope, hwaiting] at h

theorem scope_addTriple {subject predicate object : Term}
    (h : s.addTriple subject predicate object = .ok s1) :
    s1.scope = s.scope ∧ s1.waiting = s.waiting := by
  simp only [addTriple] at h
  split at h
  · simp at h
  · next t _ =>
    obtain rfl := Except.ok.inj h
    obtain ⟨hbase, hspaces⟩ := scope_add s.graph t
    exact ⟨by simp only [scope, Scope.ofGraph, hbase, hspaces], rfl⟩

theorem goes_of_deliver {term : Term} {mayEnd : Bool} (h : s.deliver term mayEnd target = .ok s1)
    (hrest : s1.Remains rest) : s.Goes target mayEnd rest := by
  cases target with
  | subject =>
    obtain rfl := Except.ok.inj h
    cases mayEnd <;> exact hrest
  | object subject predicate =>
    simp only [deliver] at h
    split at h
    · simp at h
    · next s2 hadd =>
      obtain rfl := Except.ok.inj h
      obtain ⟨hscope, hwaiting⟩ := scope_addTriple hadd
      exact Goes.congr hscope hwaiting hrest
  | item items =>
    obtain rfl := Except.ok.inj h
    exact hrest

theorem goes_of_deliverLiteral {value : String} {language : Option String} {datatype : Option Iri}
    (h : s.deliverLiteral value language datatype target = .ok s1) (hrest : s1.Remains rest) :
    s.Goes target false rest := by
  simp only [deliverLiteral] at h
  split at h
  · simp at h
  · exact goes_of_deliver h hrest

theorem closes_of_closeBracket {node : Term} {hadContent : Bool}
    (h : s.closeBracket node hadContent = .ok s1) (hrest : s1.Remains rest) :
    Closes s.scope s.waiting (if hadContent then .bracket else .emptyBracket) rest := by
  simp only [closeBracket] at h
  split at h
  · simp [refuse] at h
  · next target waiting hw =>
    rw [hw]
    cases hadContent <;> exact goes_of_deliver h hrest

theorem scope_mintMany (g : Graph) (count : Nat) :
    Scope.ofGraph (g.mintMany count).2 = .ofGraph g := by
  induction count generalizing g with
  | zero => rfl
  | succ count ih => exact ih g.mint.2

theorem scope_chain {links : List (Term × Term)} (h : s.chain links = .ok s1) :
    s1.scope = s.scope ∧ s1.waiting = s.waiting := by
  induction links generalizing s with
  | nil =>
    obtain rfl := Except.ok.inj h
    exact ⟨rfl, rfl⟩
  | cons link links ih =>
    simp only [chain] at h
    split at h
    · simp at h
    · next s2 hfirst =>
      split at h
      · simp at h
      · next s3 hsecond =>
        obtain ⟨hscope1, hwaiting1⟩ := scope_addTriple hfirst
        obtain ⟨hscope2, hwaiting2⟩ := scope_addTriple hsecond
        obtain ⟨hscope3, hwaiting3⟩ := ih h
        exact ⟨hscope3.trans (hscope2.trans hscope1), hwaiting3.trans (hwaiting2.trans hwaiting1)⟩

theorem closes_of_closeCollection {items : List Term} (h : s.closeCollection items = .ok s1)
    (hrest : s1.Remains rest) : Closes s.scope s.waiting .collection rest := by
  simp only [closeCollection] at h
  split at h
  · simp [refuse] at h
  · next target waiting hw =>
    split at h
    · simp at h
    · next s2 hchain =>
      obtain ⟨hscope, hwaiting⟩ := scope_chain hchain
      have hmint : State.scope { s with
          graph := (s.graph.mintMany items.length).2, waiting := waiting } = s.scope :=
        scope_mintMany s.graph items.length
      rw [hw]
      have hgoes := goes_of_deliver h hrest
      rwa [Goes, hscope, hmint, hwaiting] at hgoes

theorem closes_of_endSubject {subject : Term} (h : s.endSubject subject l = .ok s1)
    (hrest : s1.Remains rest) : ∃ ending : Ending, l = .punct ending.mark ∧
      ending.EndsSubject ∧ Closes s.scope s.waiting ending rest := by
  simp only [endSubject] at h
  split at h
  · next hw =>
    split at h
    · next hl =>
      obtain rfl := Except.ok.inj h
      exact ⟨.statement, hl, .inl rfl, by rw [hw]; exact hrest hw⟩
    · simp [refuse] at h
  · split at h
    · next hl => exact ⟨.bracket, hl, .inr rfl, closes_of_closeBracket h hrest⟩
    · simp [refuse] at h

theorem inScope_of_resolve {base : Option Iri} {value : String} {iri : Iri}
    (h : resolve base value = .ok iri) (spaces : List (String × Iri)) :
    (Name.iri value).InScope ⟨base, spaces⟩ := by
  by_cases hscheme : hasScheme value.toList = true
  · exact .inl hscheme
  · simp only [resolve, hscheme] at h
    cases base with
    | none => simp at h
    | some base =>
      by_cases habsolute : base.isAbsolute = true
      · exact .inr ⟨base, rfl, habsolute⟩
      · simp [habsolute] at h

theorem name_of_iri? {iri : Iri} (h : State.iri? s.graph l = some (.ok iri)) :
    ∃ n : Name, l = n.lexeme ∧ n.InScope s.scope := by
  cases l with
  | iri value => exact ⟨.iri value, rfl, inScope_of_resolve (Option.some.inj h) _⟩
  | name label localPart =>
    refine ⟨.short label localPart, rfl, ?_⟩
    simp only [iri?, expand, Graph.namespace?, Option.some.injEq] at h
    split at h
    · next space hlookup =>
      obtain ⟨before, behind, hspaces, -⟩ := List.lookup_eq_some_iff.1 hlookup
      simp [Name.InScope, scope, Scope.ofGraph, hspaces]
    · simp at h
  | _ => simp [iri?] at h

theorem goes_of_predicateOr {subject : Term} {otherwise : Except Refusal State}
    (h : s.predicateOr subject l otherwise = .ok s1) (hrest : s1.Remains rest) :
    (∃ (p : Phrase Unit .predicates) (ending : Ending) (after : List Lexeme),
      p.Fits s.scope s.waiting.length ∧ l :: rest = p.lexemes ++ .punct ending.mark :: after ∧
        ending.EndsSubject ∧ Closes s.scope s.waiting ending after) ∨ otherwise = .ok s1 := by
  have hverb : ∀ iri, State.predicate? s.graph l = some (.ok iri) →
      ∃ verb : Verb, l = verb.lexeme ∧ ∀ n ∈ verb.names, n.InScope s.scope := by
    intro iri hiri
    by_cases ha : l = .a
    · exact ⟨.a, ha, by simp [Verb.names]⟩
    · have hname : State.iri? s.graph l = some (.ok iri) := by
        cases l <;> first | exact hiri | exact (ha rfl).elim
      obtain ⟨n, hl, hn⟩ := name_of_iri? hname
      exact ⟨.name n, hl, by simpa [Verb.names] using hn⟩
  simp only [predicateOr] at h
  split at h
  · simp at h
  · next iri hiri =>
    obtain rfl := Except.ok.inj h
    obtain ⟨verb, rfl, hnames⟩ := hverb iri hiri
    obtain ⟨first, behind, hfirst, rfl, objects, more, ending, after, hobjects, hmore, rfl,
      hends, hcloses⟩ := hrest
    refine .inl ⟨.predicates verb first objects more, ending, after, ⟨?_, ?_⟩, ?_, hends, hcloses⟩
    · simp only [Phrase.names, List.forall_mem_append]
      exact ⟨⟨⟨hnames, hfirst.names⟩, hobjects.names⟩, hmore.names⟩
    · have h1 := hfirst.shallow
      have h2 := hobjects.shallow
      have h3 := hmore.shallow
      simp only [expect] at h1 h2 h3
      simp only [Phrase.depth]
      omega
    · simp [Phrase.lexemes]
  · exact .inr h

theorem scope_nodeOfLabel {label : String} {node : Term}
    (h : s.nodeOfLabel label = .ok (node, s1)) : s1.scope = s.scope ∧ s1.waiting = s.waiting := by
  simp only [nodeOfLabel] at h
  split at h
  · obtain ⟨-, rfl⟩ := Prod.mk.inj (Except.ok.inj h)
    exact ⟨rfl, rfl⟩
  · split at h
    · obtain ⟨-, rfl⟩ := Prod.mk.inj (Except.ok.inj h)
      exact ⟨rfl, rfl⟩
    · by_cases hlabel : label = ""
      · simp [hlabel, Graph.reserve, Term.ofBlankId, checked, bind, Except.bind] at h
      · simp only [Graph.reserve, Term.ofBlankId, hlabel, if_false, bind, Except.bind, pure,
          Except.pure, checked, Term.blankId?, Option.elim] at h
        obtain ⟨-, rfl⟩ := Prod.mk.inj (Except.ok.inj h)
        obtain ⟨hbase, hspaces⟩ := scope_foldl_see s.graph [label]
        simp only [List.foldl] at hbase hspaces
        exact ⟨by simp only [scope, Scope.ofGraph, hbase, hspaces], rfl⟩

theorem room_of_nest (h : s.nest target = .ok s1) :
    s.waiting.length < maxNesting ∧ s1 = { s with waiting := target :: s.waiting } := by
  simp only [nest] at h
  split at h
  · simp [refuse] at h
  · next hroom => exact ⟨Nat.not_le.1 hroom, (Except.ok.inj h).symm⟩

theorem goes_of_openBracket (hroom : s.waiting.length < maxNesting)
    (hrest : (s.inBracket target).Remains rest) :
    ∃ (node : Phrase Unit .resource) (after : List Lexeme), node.Fits s.scope s.waiting.length ∧
      .punct .openBracket :: rest = node.lexemes ++ after ∧ s.Goes target node.mayEnd after := by
  obtain ⟨content, ending, after, hcontent, rfl, hends, hcloses⟩ | ⟨after, rfl, hcloses⟩ := hrest
  · obtain rfl : ending = .bracket := by
      cases hends with
      | inl he => exact (he ▸ hcloses : Closes s.scope (target :: s.waiting) .statement after).elim
      | inr he => exact he
    refine ⟨.bracket () content, after, ⟨hcontent.names, ?_⟩, ?_, hcloses⟩
    · simp only [Phrase.depth]
      have hshallow := hcontent.shallow
      simp only [inBracket, List.length_cons] at hshallow
      omega
    · simp [Phrase.lexemes, Ending.mark]
  · refine ⟨.emptyBracket (), after, ⟨by simp [Phrase.names], ?_⟩, rfl, hcloses⟩
    simp only [Phrase.depth]
    omega

theorem goes_of_openParen (hroom : s.waiting.length < maxNesting)
    (hrest : (s.inParen target).Remains rest) :
    ∃ (node : Phrase Unit .resource) (after : List Lexeme), node.Fits s.scope s.waiting.length ∧
      .punct .openParen :: rest = node.lexemes ++ after ∧ s.Goes target node.mayEnd after := by
  obtain ⟨items, after, hitems, rfl, hcloses⟩ := hrest
  refine ⟨.collection items, after, ⟨hitems.names, ?_⟩, by simp [Phrase.lexemes], hcloses⟩
  have hshallow := hitems.shallow
  simp only [inParen, List.length_cons] at hshallow
  simp only [Phrase.depth]
  omega

theorem goes_of_beginTerm (h : s.beginTerm target l = .ok s1) (hrest : s1.Remains rest) :
    (∃ (node : Phrase Unit .resource) (after : List Lexeme), node.Fits s.scope s.waiting.length ∧
      l :: rest = node.lexemes ++ after ∧ s.Goes target node.mayEnd after) ∨
    target ≠ .subject ∧ ∃ (literal : Constant) (after : List Lexeme),
      (∀ n ∈ literal.names, n.InScope s.scope) ∧ l :: rest = literal.lexemes ++ after ∧
        s.Goes target false after := by
  cases hiri : iri? s.graph l with
  | some found =>
    cases found with
    | error refusal => simp [beginTerm, hiri] at h
    | ok iri =>
      simp only [beginTerm, hiri] at h
      obtain ⟨n, rfl, hn⟩ := name_of_iri? hiri
      have hfits : (Phrase.name n : Phrase Unit .resource).Fits s.scope s.waiting.length :=
        ⟨by simpa [Phrase.names] using hn, Nat.zero_le _⟩
      exact .inl ⟨.name n, rest, hfits, rfl, goes_of_deliver h hrest⟩
  | none =>
    cases l with
    | blank label =>
      simp only [beginTerm, hiri] at h
      split at h
      · simp at h
      · next node s2 hnode =>
        obtain ⟨hscope, hwaiting⟩ := scope_nodeOfLabel hnode
        have hfits : (Phrase.blank label : Phrase Unit .resource).Fits s.scope s.waiting.length :=
          ⟨by simp [Phrase.names], Nat.zero_le _⟩
        exact .inl ⟨.blank label, rest, hfits, rfl,
          Goes.congr hscope hwaiting (goes_of_deliver h hrest)⟩
    | punct mark =>
      cases mark with
      | openBracket =>
        simp only [beginTerm, hiri] at h
        split at h
        · simp at h
        · next s2 hnest =>
          obtain ⟨hroom, rfl⟩ := room_of_nest hnest
          obtain rfl := Except.ok.inj h
          exact .inl (goes_of_openBracket hroom hrest)
      | openParen =>
        simp only [beginTerm, hiri] at h
        split at h
        · simp at h
        · next s2 hnest =>
          obtain ⟨hroom, rfl⟩ := room_of_nest hnest
          obtain rfl := Except.ok.inj h
          exact .inl (goes_of_openParen hroom hrest)
      | _ => simp [beginTerm, hiri, refuse] at h
    | string delimiter value =>
      simp only [beginTerm, hiri] at h
      split at h
      · simp [refuse] at h
      · next htarget =>
        obtain rfl := Except.ok.inj h
        obtain ⟨suffix, after, hnames, rfl, hgoes⟩ := hrest
        exact .inr ⟨htarget, .string delimiter value suffix, after, hnames, rfl, hgoes⟩
    | number kind text =>
      simp only [beginTerm, hiri] at h
      split at h
      · simp [refuse] at h
      · next htarget =>
        exact .inr ⟨htarget, .number kind text, rest, by simp [Constant.names], rfl,
          goes_of_deliverLiteral h hrest⟩
    | boolean text =>
      simp only [beginTerm, hiri] at h
      split at h
      · simp [refuse] at h
      · next htarget =>
        exact .inr ⟨htarget, .boolean text, rest, by simp [Constant.names], rfl,
          goes_of_deliverLiteral h hrest⟩
    | _ => simp [beginTerm, hiri, refuse] at h

theorem object_of_beginTerm (htarget : target ≠ .subject) (h : s.beginTerm target l = .ok s1)
    (hrest : s1.Remains rest) : ∃ (p : Phrase Unit .object) (after : List Lexeme),
      p.Fits s.scope s.waiting.length ∧ l :: rest = p.lexemes ++ after ∧
        s.Goes target false after := by
  obtain ⟨node, after, hfits, hl, hgoes⟩ | ⟨-, literal, after, hnames, hl, hgoes⟩ :=
    goes_of_beginTerm h hrest
  · refine ⟨.resource node, after, ⟨hfits.names, hfits.shallow⟩, hl, ?_⟩
    cases target with
    | subject => exact (htarget rfl).elim
    | object _ _ | item _ => exact hgoes
  · exact ⟨.constant literal, after, ⟨hnames, Nat.zero_le _⟩, hl, hgoes⟩

theorem statements_of_beginTerm (hw : s.waiting = []) (h : s.beginTerm .subject l = .ok s1)
    (hrest : s1.Remains rest) : Statements s.scope (l :: rest) := by
  obtain ⟨node, after, hfits, hl, ending, behind, hcontent, hends, hcloses⟩ | ⟨hne, -⟩ :=
    goes_of_beginTerm h hrest
  · rw [hw] at hfits hcontent hcloses
    obtain rfl : ending = .statement := by
      cases hends with
      | inl he => exact he
      | inr he => exact (he ▸ hcloses : Closes s.scope [] .bracket behind).elim
    obtain ⟨document, rfl, hscope, hshallow⟩ := hcloses
    obtain ⟨content, hcfits, rfl⟩ | ⟨hend, rfl⟩ := hcontent
    · refine ⟨.triples node content :: document, ?_, ⟨?_, hscope⟩, ?_⟩
      · simp [hl, Document.lexemes, Statement.lexemes, Ending.mark]
      · exact List.forall_mem_append.2 ⟨hfits.names, hcfits.names⟩
      · refine List.forall_mem_cons.2 ⟨?_, hshallow⟩
        exact Nat.max_le.2 ⟨hfits.shallow, hcfits.shallow⟩
    · cases node with
      | bracket mark content =>
        refine ⟨.lone () content :: document, ?_, ⟨hfits.names, hscope⟩, ?_⟩
        · simp [hl, Document.lexemes, Statement.lexemes, Phrase.lexemes, Ending.mark]
        · exact List.forall_mem_cons.2 ⟨hfits.shallow, hshallow⟩
      | _ => simp [Phrase.mayEnd] at hend
  · exact (hne rfl).elim

theorem remains_of_endDirective {word : Directive} {g : Graph}
    (h : ({ s with graph := g }.endDirective word).Remains rest) (hw : s.waiting = []) :
    ∃ after, rest = directiveEnd word.isDotted ++ after ∧ Statements (.ofGraph g) after := by
  by_cases hd : word.isDotted = true
  · simp only [endDirective, hd, if_true] at h
    obtain ⟨after, rfl, hafter⟩ := h hw
    exact ⟨after, by simp [directiveEnd, hd], hafter⟩
  · simp only [endDirective, hd] at h
    exact ⟨rest, by simp [directiveEnd, hd], h hw⟩

theorem demandsIri_of_resolve {word : Directive} {value : String} {iri : Iri} {change : Iri → Graph}
    (hiri : resolve s.graph.base value = .ok iri)
    (h : ({ s with graph := change iri }.endDirective word).Remains rest) (hw : s.waiting = []) :
    s.DemandsIri word (fun iri => .ofGraph (change iri)) (.iri value :: rest) := by
  obtain ⟨after, rfl, hafter⟩ := remains_of_endDirective h hw
  have hname := inScope_of_resolve hiri s.graph.namespaces
  have hsame := (resolve_eq_ok hname s.graph.namespaces).1
  obtain rfl := Except.ok.inj (hiri.symm.trans hsame)
  exact ⟨value, after, rfl, hname, hafter⟩

theorem remains_subject (he : s.expecting = .term .subject) (h : s.advance l = .ok s1)
    (hl : l ≠ .eof) (hrest : s1.Remains rest) (hw : s.waiting = []) :
    Statements s.scope (l :: rest) := by
  by_cases hd : ∃ word, l = .directive word
  · obtain ⟨⟨declares, word, isDotted⟩, rfl⟩ := hd
    simp only [advance, he] at h
    obtain rfl := Except.ok.inj h
    cases declares with
    | label =>
      obtain ⟨label, behind, rfl, value, after, rfl, hname, document, rfl, hscope, hshallow⟩ :=
        hrest hw
      refine ⟨.space word isDotted label value :: document, ?_, ⟨?_, hscope⟩, ?_⟩
      · simp [Document.lexemes, Statement.lexemes]
      · exact List.forall_mem_singleton.2 hname
      · exact List.forall_mem_cons.2 ⟨Nat.zero_le _, hshallow⟩
    | base =>
      obtain ⟨value, after, rfl, hname, document, rfl, hscope, hshallow⟩ := hrest hw
      refine ⟨.base word isDotted value :: document, ?_, ⟨?_, hscope⟩, ?_⟩
      · simp [Document.lexemes, Statement.lexemes]
      · exact List.forall_mem_singleton.2 hname
      · exact List.forall_mem_cons.2 ⟨Nat.zero_le _, hshallow⟩
  · have hterm : s.advance l = s.beginTerm .subject l := by
      cases l with
      | eof => exact (hl rfl).elim
      | directive word => exact (hd ⟨word, rfl⟩).elim
      | _ => simp only [advance, he]
    exact statements_of_beginTerm hw (hterm ▸ h) hrest

theorem remains_item {items : List Term} (he : s.expecting = .term (.item items))
    (h : s.advance l = .ok s1) (hrest : s1.Remains rest) :
    s.Goes (.item items) false (l :: rest) := by
  by_cases hp : l = .punct .closeParen
  · subst hp
    simp only [advance, he] at h
    exact ⟨.noItems, rest, ⟨by simp [Phrase.names], Nat.zero_le _⟩, rfl,
      closes_of_closeCollection h hrest⟩
  · have hterm : s.beginTerm (.item items) l = .ok s1 := by
      cases l with
      | eof => simp [advance, he, refuse] at h
      | punct mark => cases mark <;> first | exact (hp rfl).elim | simpa only [advance, he] using h
      | _ => simpa only [advance, he] using h
    obtain ⟨p, behind, hfits, hl, others, after, hothers, rfl, hcloses⟩ :=
      object_of_beginTerm (by simp) hterm hrest
    refine ⟨.item () p others, after, ⟨?_, ?_⟩, ?_, hcloses⟩
    · exact List.forall_mem_append.2 ⟨hfits.names, hothers.names⟩
    · exact Nat.max_le.2 ⟨hfits.shallow, hothers.shallow⟩
    · simp [hl, Phrase.lexemes]

theorem remains_space {word : Directive} {label : String} (he : s.expecting = .space word label)
    (h : s.advance l = .ok s1) (hrest : s1.Remains rest) (hw : s.waiting = []) :
    s.DemandsIri word (fun iri => { s.scope with
      spaces := Graph.bindIn label iri s.scope.spaces }) (l :: rest) := by
  cases l with
  | iri value =>
    simp only [advance, he] at h
    split at h
    · simp at h
    · next iri hiri =>
      obtain rfl := Except.ok.inj h
      exact @demandsIri_of_resolve s rest word value iri (s.graph.bind label) hiri hrest hw
  | _ => simp [advance, he, refuse] at h

theorem remains_base {word : Directive} (he : s.expecting = .base word)
    (h : s.advance l = .ok s1) (hrest : s1.Remains rest) (hw : s.waiting = []) :
    s.DemandsIri word (fun iri => { s.scope with base := iri }) (l :: rest) := by
  cases l with
  | iri value =>
    simp only [advance, he] at h
    split at h
    · simp at h
    · next iri hiri =>
      obtain rfl := Except.ok.inj h
      exact @demandsIri_of_resolve s rest word value iri (s.graph.setBase ∘ some) hiri hrest hw
  | _ => simp [advance, he, refuse] at h

theorem remains_firstPredicate {node : Term} (he : s.expecting = .firstPredicate node)
    (h : s.advance l = .ok s1) (hrest : s1.Remains rest) : s.Remains (l :: rest) := by
  rw [Remains, he]
  by_cases hp : l = .punct .closeBracket
  · subst hp
    simp only [advance, he] at h
    exact .inr ⟨rest, rfl, closes_of_closeBracket h hrest⟩
  · have hor : s.predicateOr node l (refuse .predicate) = .ok s1 := by
      cases l with
      | punct mark => cases mark <;> first | exact (hp rfl).elim | simpa only [advance, he] using h
      | _ => simpa only [advance, he] using h
    cases goes_of_predicateOr hor hrest with
    | inl hgoes => exact .inl hgoes
    | inr hno => simp [refuse] at hno

theorem remains_more {subject predicate : Term} (he : s.expecting = .more subject predicate)
    (h : s.advance l = .ok s1) (hrest : s1.Remains rest) :
    s.Goes (.object subject predicate) false (l :: rest) := by
  by_cases hc : l = .punct .comma
  · subst hc
    simp only [advance, he] at h
    obtain rfl := Except.ok.inj h
    obtain ⟨first, behind, hfirst, rfl, objects, more, ending, after, hobjects, hmore, rfl, hends,
      hcloses⟩ := hrest
    refine ⟨.nextObject first objects, more, ending, after, ⟨?_, ?_⟩, hmore, ?_, hends, hcloses⟩
    · exact List.forall_mem_append.2 ⟨hfirst.names, hobjects.names⟩
    · exact Nat.max_le.2 ⟨hfirst.shallow, hobjects.shallow⟩
    · simp [Phrase.lexemes]
  · by_cases hs : l = .punct .semicolon
    · subst hs
      simp only [advance, he] at h
      obtain rfl := Except.ok.inj h
      obtain ⟨ending, after, ⟨p, hfits, rfl⟩ | ⟨p, hfits, rfl⟩, hends, hcloses⟩ := hrest
      · exact ⟨.noObjects, .nextPredicates p, ending, after, ⟨by simp [Phrase.names], Nat.zero_le _⟩,
          ⟨hfits.names, hfits.shallow⟩, rfl, hends, hcloses⟩
      · exact ⟨.noObjects, .semicolon p, ending, after, ⟨by simp [Phrase.names], Nat.zero_le _⟩,
          ⟨hfits.names, hfits.shallow⟩, rfl, hends, hcloses⟩
    · have hend : s.endSubject subject l = .ok s1 := by
        cases l with
        | punct mark =>
          cases mark <;>
            first | exact (hc rfl).elim | exact (hs rfl).elim | simpa only [advance, he] using h
        | _ => simpa only [advance, he] using h
      obtain ⟨ending, rfl, hends, hcloses⟩ := closes_of_endSubject hend hrest
      exact ⟨.noObjects, .noMore, ending, rest, ⟨by simp [Phrase.names], Nat.zero_le _⟩,
        ⟨by simp [Phrase.names], Nat.zero_le _⟩, rfl, hends, hcloses⟩

theorem remains_nextPredicate {subject : Term} (he : s.expecting = .nextPredicate subject)
    (h : s.advance l = .ok s1) (hrest : s1.Remains rest) : s.Remains (l :: rest) := by
  rw [Remains, he]
  by_cases hs : l = .punct .semicolon
  · subst hs
    simp only [advance, he] at h
    obtain rfl := Except.ok.inj h
    rw [Remains, he] at hrest
    obtain ⟨ending, after, ⟨p, hfits, rfl⟩ | ⟨p, hfits, rfl⟩, hends, hcloses⟩ := hrest
    · exact ⟨ending, after, .inr ⟨.nextPredicates p, ⟨hfits.names, hfits.shallow⟩, rfl⟩, hends,
        hcloses⟩
    · exact ⟨ending, after, .inr ⟨.semicolon p, ⟨hfits.names, hfits.shallow⟩, rfl⟩, hends, hcloses⟩
  · have hor : s.predicateOr subject l (s.endSubject subject l) = .ok s1 := by
      cases l with
      | punct mark => cases mark <;> first | exact (hs rfl).elim | simpa only [advance, he] using h
      | _ => simpa only [advance, he] using h
    cases goes_of_predicateOr hor hrest with
    | inl hgoes =>
      obtain ⟨p, ending, after, hfits, hl, hends, hcloses⟩ := hgoes
      exact ⟨ending, after, .inl ⟨p, hfits, hl⟩, hends, hcloses⟩
    | inr hend =>
      obtain ⟨ending, rfl, hends, hcloses⟩ := closes_of_endSubject hend hrest
      exact ⟨ending, rest, .inr ⟨.noMore, ⟨by simp [Phrase.names], Nat.zero_le _⟩, rfl⟩, hends,
        hcloses⟩

/-- The lexeme that a state reads stands in front of what the next state demands. -/
theorem remains_of_advance (h : s.advance l = .ok s1) (hl : l ≠ .eof)
    (hrest : s1.Remains rest) : s.Remains (l :: rest) := by
  cases he : s.expecting with
  | term target =>
    rw [Remains, he]
    cases target with
    | subject => exact remains_subject he h hl hrest
    | item items => exact remains_item he h hrest
    | object subject predicate =>
      have hterm : s.beginTerm (.object subject predicate) l = .ok s1 := by
        cases l <;> simpa only [advance, he] using h
      exact object_of_beginTerm (by simp) hterm hrest
  | label word =>
    rw [Remains, he]
    intro hw
    cases l with
    | name label localPart =>
      by_cases hlocal : localPart = ""
      · subst hlocal
        simp only [advance, he] at h
        obtain rfl := Except.ok.inj h
        exact ⟨label, rest, rfl, hrest hw⟩
      · simp [advance, he, hlocal, refuse] at h
    | _ => simp [advance, he, refuse] at h
  | space word label =>
    rw [Remains, he]
    exact remains_space he h hrest
  | base word =>
    rw [Remains, he]
    exact remains_base he h hrest
  | directiveEnd word =>
    rw [Remains, he]
    intro hw
    by_cases hd : l = .punct .dot
    · subst hd
      simp only [advance, he] at h
      obtain rfl := Except.ok.inj h
      exact ⟨rest, rfl, hrest hw⟩
    · cases l with
      | punct mark =>
        cases mark <;> first | exact (hd rfl).elim | simp [advance, he, refuse] at h
      | _ => simp [advance, he, refuse] at h
  | predicate subject =>
    rw [Remains, he]
    have hor : s.predicateOr subject l (refuse .predicate) = .ok s1 := by
      cases l <;> simpa only [advance, he] using h
    cases goes_of_predicateOr hor hrest with
    | inl hgoes =>
      obtain ⟨p, ending, after, hfits, hl, hends, hcloses⟩ := hgoes
      exact ⟨ending, after, .inl ⟨p, hfits, hl⟩, hends, hcloses⟩
    | inr hno => simp [refuse] at hno
  | firstPredicate node => exact remains_firstPredicate he h hrest
  | anyPredicate subject =>
    rw [Remains, he]
    have hor : s.predicateOr subject l (s.endSubject subject l) = .ok s1 := by
      cases l <;> simpa only [advance, he] using h
    cases goes_of_predicateOr hor hrest with
    | inl hgoes =>
      obtain ⟨p, ending, after, hfits, hl, hends, hcloses⟩ := hgoes
      exact ⟨ending, after, .inl ⟨p, hfits, hl⟩, hends, hcloses⟩
    | inr hend =>
      obtain ⟨ending, rfl, hends, hcloses⟩ := closes_of_endSubject hend hrest
      exact ⟨ending, rest, .inr ⟨rfl, rfl⟩, hends, hcloses⟩
  | more subject predicate =>
    rw [Remains, he]
    exact remains_more he h hrest
  | nextPredicate subject => exact remains_nextPredicate he h hrest
  | datatype value target =>
    rw [Remains, he]
    simp only [advance, he] at h
    split at h
    · simp at h
    · next iri hiri =>
      obtain ⟨n, rfl, hn⟩ := name_of_iri? hiri
      exact ⟨n, rest, hn, rfl, goes_of_deliverLiteral h hrest⟩
    · simp [refuse] at h
  | suffix value target => simp [advance, he, refuse] at h
  | nothing => simp only [Remains, he]

theorem remains_of_step (h : s.step l = .ok s1) (hl : l ≠ .eof) (hrest : s1.Remains rest) :
    s.Remains (l :: rest) := by
  by_cases hsuffix : ∃ value target, s.expecting = .suffix value target
  · obtain ⟨value, target, he⟩ := hsuffix
    rw [Remains, he]
    simp only [step, he] at h
    split at h
    · next tag =>
      exact ⟨.language tag, rest, by simp [Suffix.names], rfl, goes_of_deliverLiteral h hrest⟩
    · obtain rfl := Except.ok.inj h
      obtain ⟨n, after, hn, rfl, hgoes⟩ := hrest
      exact ⟨.datatype n, after, List.forall_mem_singleton.2 hn, rfl, hgoes⟩
    · split at h
      · simp at h
      · next s2 hdeliver =>
        exact ⟨.nothing, l :: rest, by simp [Suffix.names], rfl,
          goes_of_deliverLiteral hdeliver (remains_of_advance h hl hrest)⟩
  · have hstep : s.step l = s.advance l :=
      step_of_expecting fun value target he => hsuffix ⟨value, target, he⟩
    exact remains_of_advance (hstep ▸ h) hl hrest

/-! ### The end of the document -/

theorem expecting_of_advance_eof (h : s.advance .eof = .ok s1) :
    s.expecting = .nothing ∨ s.expecting = .term .subject := by
  cases he : s.expecting with
  | nothing => exact .inl rfl
  | term target =>
    cases target with
    | subject => exact .inr rfl
    | _ => simp [advance, he, beginTerm, iri?, refuse] at h
  | anyPredicate _ | more _ _ | nextPredicate _ =>
    cases hw : s.waiting <;>
      simp [advance, he, predicateOr, predicate?, iri?, endSubject, hw, refuse] at h
  | _ => simp [advance, he, predicateOr, predicate?, iri?, refuse] at h

/-- A string that waits for its suffix does not take the end of the document either. -/
theorem expecting_of_eof (h : s.step .eof = .ok s1) :
    s.expecting = .nothing ∨ s.expecting = .term .subject := by
  by_cases hsuffix : ∃ value target, s.expecting = .suffix value target
  · obtain ⟨value, target, he⟩ := hsuffix
    simp only [step, he] at h
    split at h
    · simp at h
    · next s2 hdeliver =>
      simp only [deliverLiteral] at hdeliver
      split at hdeliver
      · simp at hdeliver
      · have hno : s2.expecting ≠ .nothing ∧ s2.expecting ≠ .term .subject := by
          cases target with
          | object subject predicate =>
            simp only [deliver] at hdeliver
            split at hdeliver
            · simp at hdeliver
            · obtain rfl := Except.ok.inj hdeliver
              simp [expect]
          | subject | item _ =>
            obtain rfl := Except.ok.inj hdeliver
            simp [expect]
        cases expecting_of_advance_eof h with
        | inl he => exact (hno.1 he).elim
        | inr he => exact (hno.2 he).elim
  · have hstep : s.step .eof = s.advance .eof :=
      step_of_expecting fun value target he => hsuffix ⟨value, target, he⟩
    exact expecting_of_advance_eof (hstep ▸ h)

theorem remains_of_eof (h : s.step .eof = .ok s1) : s.Remains [] := by
  have hstatements : Statements s.scope [] := ⟨[], rfl, trivial, by simp [Document.IsShallow]⟩
  cases expecting_of_eof h with
  | inl he => simp only [Remains, he]
  | inr he =>
    rw [Remains, he]
    exact fun _ => hstatements

/-- The end of the document is the end of the reading. -/
theorem graph?_of_eof (h : s.step .eof = .ok s1) : s1.graph? = some s1.graph := by
  have hend : s1.expecting = .nothing := by
    cases expecting_of_eof h with
    | inl he =>
      simp only [step, he, advance] at h
      exact Except.ok.inj h ▸ he
    | inr he =>
      simp only [step, he, advance] at h
      exact Except.ok.inj h ▸ rfl
  exact if_pos hend

/-- What is read up to the end of the document is what the first state demands. -/
theorem remains_of_run {lexemes : List Lexeme} (hl : ∀ l ∈ lexemes, l ≠ .eof)
    (h : machine.runLexemes s (lexemes ++ [.eof]) = .ok s1) : s.Remains lexemes := by
  induction lexemes generalizing s with
  | nil =>
    cases hs : s.step .eof with
    | error refusal =>
      have hstep : machine.step s .eof = .error refusal := hs
      simp [Machine.runLexemes, hstep] at h
    | ok next => exact remains_of_eof hs
  | cons l lexemes ih =>
    obtain ⟨hne, hrest⟩ := List.forall_mem_cons.1 hl
    cases hs : s.step l with
    | error refusal =>
      have hstep : machine.step s l = .error refusal := hs
      simp [Machine.runLexemes, hstep] at h
    | ok next =>
      have hstep : machine.step s l = .ok next := hs
      simp only [List.cons_append, Machine.runLexemes, hstep] at h
      exact remains_of_step hs hne (ih hrest h)

end State

/-! ### Acceptance -/

/-- The lexeme is one that the scanner finds in some text. -/
def IsScanned (l : Lexeme) : Prop :=
  ∃ afterString text left, Lexeme.scan afterString text = .ok (l, left)

/-- The scanner gives no empty label and no empty tag. -/
theorem IsScanned.proper (h : IsScanned l) : l.Proper := by
  obtain ⟨afterString, text, left, h⟩ := h
  have hlegible := Lexeme.legible_of_scan h
  cases l with
  | blank label =>
    rintro rfl
    simp [Lexeme.Legible, isBlankLabel] at hlegible
  | languageTag tag =>
    rintro rfl
    have hempty : isLanguageTag [] = false := by decide
    simp [Lexeme.Legible, hempty] at hlegible
  | _ => trivial

/-- The reader accepts the documents of the grammar in which names are in scope and nothing is
nested too deep. -/
theorem readTokens_eq_ok_iff (source : SourceName) (base : Option Iri) {tokens : List Token}
    {last : Token} (hlast : last.lexeme = .eof)
    (htokens : ∀ token ∈ tokens, token.lexeme ≠ .eof ∧ IsScanned token.lexeme) :
    (∃ g, readTokens source base ⟨tokens ++ [last], none⟩ = .ok g) ↔
      ∃ document : Document Unit, document.lexemes = tokens.map (·.lexeme) ∧
        document.InScope ⟨base, []⟩ ∧ document.IsShallow := by
  have hmap : (tokens ++ [last]).map (·.lexeme) = tokens.map (·.lexeme) ++ [.eof] := by
    simp [hlast]
  constructor
  · intro ⟨g, hg⟩
    obtain ⟨s, hrun, -⟩ := machine.read_eq_ok_iff.1 hg
    rw [hmap] at hrun
    have hne : ∀ l ∈ tokens.map (·.lexeme), l ≠ .eof := by
      intro l hl
      obtain ⟨token, htoken, rfl⟩ := List.mem_map.1 hl
      exact (htokens token htoken).1
    exact State.remains_of_run hne hrun rfl
  · intro ⟨document, hlexemes, hscope, hshallow⟩
    have hproper : ∀ l ∈ document.lexemes, l.Proper := by
      intro l hl
      rw [hlexemes] at hl
      obtain ⟨token, htoken, rfl⟩ := List.mem_map.1 hl
      exact (htokens token htoken).2.proper
    obtain ⟨s, new, hrun, -⟩ := document.runs base hscope hproper hshallow
    rw [hlexemes, ← hmap] at hrun
    exact ⟨s.graph, machine.read_eq_ok_iff.2 ⟨_, hrun, rfl⟩⟩

theorem IsScanned.of_text (text : String)
    (h : (Lexeme.scan false text.toList).toOption.map (·.1) = some l) : IsScanned l := by
  cases hs : Lexeme.scan false text.toList with
  | error fault => simp [hs, Except.toOption] at h
  | ok found =>
    obtain ⟨lexeme, left⟩ := found
    obtain rfl : lexeme = l := by simpa [hs, Except.toOption] using h
    exact ⟨false, text.toList, left, hs⟩

theorem readTokens_collection :
    let token (lexeme : Lexeme) : Token := ⟨lexeme, .start⟩
    let tokens := [.directive ⟨.label, "@prefix", true⟩, .name "" "", .iri "urn:p#",
      .punct .dot, .punct .openBracket, .punct .closeBracket, .a, .punct .openParen, .name "" "b",
      .number .integer "1", .punct .closeParen, .punct .semicolon, .punct .dot].map token
    ∃ g, readTokens (.text "tokens") none ⟨tokens ++ [token .eof], none⟩ = .ok g := by
  intro token tokens
  let texts := ["@prefix", ":", "<urn:p#>", ".", "[", "]", "a", "(", ":b", "1", ")", ";"]
  have htexts : ∀ token ∈ tokens, token.lexeme ≠ .eof ∧ ∃ text ∈ texts,
      (Lexeme.scan false text.toList).toOption.map (·.1) = some token.lexeme := by decide +kernel
  have hscanned : ∀ token ∈ tokens, token.lexeme ≠ .eof ∧ IsScanned token.lexeme := by
    intro token htoken
    obtain ⟨hne, text, -, hscan⟩ := htexts token htoken
    exact ⟨hne, .of_text text hscan⟩
  let list : Phrase Unit .resource := .collection (.item () (.resource (.name (.short "" "b")))
    (.item () (.constant (.number .integer "1")) .noItems))
  let document : Document Unit := [.space "@prefix" true "" "urn:p#",
    .triples (.emptyBracket ()) (.predicates .a (.resource list) .noObjects (.semicolon .noMore))]
  have hscope : document.InScope ⟨none, []⟩ ∧ document.IsShallow := by decide +kernel
  exact (readTokens_eq_ok_iff (.text "tokens") none rfl hscanned).2 ⟨document, rfl, hscope⟩

end Rdf.Turtle

import Rdf.Proofs.Iri.Schemes
import Rdf.Proofs.Term.Validity
import Rdf.Proofs.Turtle.Phrases

/-!
The reader of Turtle takes documents.

A document in scope is accepted, and its graph holds the triples that it means, under some naming
of its labels and its marks.
-/

namespace Rdf.Turtle

variable {ν : Type} {s s1 : State} {fresh new : List (ν × String)}

/-! ### Scopes of graphs -/

/-- The scope that the reader is in. -/
def Scope.ofGraph (g : Graph) : Scope := ⟨g.base, g.namespaces⟩

/-- No namespace is empty. -/
def Scope.Valid (scope : Scope) : Prop := ∀ entry ∈ scope.spaces, entry.2.Valid

theorem State.resolve_eq_ok {base : Option Iri} {value : String}
    (h : hasScheme value.toList = true ∨ ∃ iri ∈ base, iri.isAbsolute = true)
    (spaces : List (String × Iri)) :
    resolve base value = .ok (Scope.iri ⟨base, spaces⟩ (.iri value)) ∧
      (Scope.iri ⟨base, spaces⟩ (.iri value)).Valid := by
  by_cases hscheme : hasScheme value.toList = true
  · have hne : value ≠ "" := @Iri.Valid.of_isAbsolute ⟨value⟩ hscheme
    simp [resolve, hscheme, Scope.iri, Iri.ofText, hne, Refusal.checked, Iri.Valid]
  · obtain ⟨iri, hiri, habsolute⟩ := h.resolve_left hscheme
    obtain rfl : base = some iri := hiri
    have hne := resolveText_ne_nil habsolute value.toList
    have htext : String.ofList (resolveText iri.value.toList value.toList) ≠ "" := by
      intro he
      exact hne (by simpa using congrArg String.toList he)
    simp [resolve, hscheme, habsolute, Scope.iri, Iri.ofText, htext, Iri.Valid]

/-- A name in scope stands for the identifier that the reader gives it. -/
theorem Name.iri?_eq {g : Graph} (hvalid : (Scope.ofGraph g).Valid) {n : Name}
    (h : n.InScope (.ofGraph g)) :
    State.iri? g n.lexeme = some (.ok ((Scope.ofGraph g).iri n)) := by
  cases n with
  | iri value => exact congrArg some (State.resolve_eq_ok h g.namespaces).1
  | short label localPart =>
    obtain ⟨iri, hlookup⟩ : ∃ iri, g.namespaces.lookup label = some iri :=
      Option.isSome_iff_exists.1 (List.lookup_isSome_iff.2 (by simpa [InScope, Scope.ofGraph] using h))
    obtain ⟨before, behind, hspaces, -⟩ := List.lookup_eq_some_iff.1 hlookup
    have hiri : iri.value ≠ "" := hvalid (label, iri) (by simp [Scope.ofGraph, hspaces])
    have hne : iri.value ++ localPart ≠ "" := by
      intro he
      have hlist := congrArg String.toList he
      simp only [String.toList_append, String.toList_empty, List.append_eq_nil_iff] at hlist
      exact hiri (String.toList_eq_nil_iff.1 hlist.1)
    simp [lexeme, State.iri?, State.expand, Graph.namespace?, hlookup, Iri.ofText, hne,
      Refusal.checked, Scope.iri, Scope.ofGraph]

theorem mem_bindIn {label : String} {iri : Iri} {spaces : List (String × Iri)}
    {entry : String × Iri} (h : entry ∈ Graph.bindIn label iri spaces) :
    entry = (label, iri) ∨ entry ∈ spaces := by
  induction spaces with
  | nil => simpa [Graph.bindIn] using h
  | cons first rest ih =>
    by_cases hf : first.1 = label
    · simp only [Graph.bindIn, hf, if_true] at h
      cases List.mem_cons.1 h with
      | inl he => exact .inl he
      | inr hrest => exact .inr (List.mem_cons_of_mem _ hrest)
    · simp only [Graph.bindIn, hf, if_false] at h
      cases List.mem_cons.1 h with
      | inl he => exact .inr (he ▸ List.mem_cons_self)
      | inr hrest => exact (ih hrest).imp_right (List.mem_cons_of_mem _)

/-! ### Statements -/

/-- The reader stands before a statement. -/
structure AtStatement (s : State) (fresh : List (ν × String)) : Prop where
  expecting : s.expecting = .term .subject
  waiting : s.waiting = []
  named : Named s fresh
  valid : (Scope.ofGraph s.graph).Valid

/-- What reading a statement, or several of them, does. -/
structure Outcome (s : State) (fresh : List (ν × String)) (s1 : State) (new : List (ν × String))
    (marks : List ν) (used : List String) (scope : Scope)
    (triples : (String → String) → (ν → String) → List Triple) : Prop where
  atStatement : AtStatement s1 (fresh ++ new)
  labels : ∀ {label node}, s.labels.lookup label = some node → s1.labels.lookup label = some node
  marks : new.map (·.1) = marks
  used : ∀ label ∈ used, (s1.labels.lookup label).isSome
  scope : Scope.ofGraph s1.graph = scope
  triples : ∀ i : Interpretation ν, Agrees i s1 (fresh ++ new) →
    s1.graph.triples = (s.graph.addAll (triples i.label i.node)).triples

theorem State.step_dot {subject : Term} (h : s.MayEnd subject ∨ s.expecting = .anyPredicate subject)
    (hw : s.waiting = []) : s.step (.punct .dot) = .ok (s.expect (.term .subject)) := by
  obtain (⟨predicate, he⟩ | he) | he := h <;>
    simp [step, advance, he, predicateOr, predicate?, iri?, endSubject, hw]

theorem leads_directiveEnd (word : Directive) :
    Leads (s.endDirective word) (directiveEnd word.isDotted) (.ok (s.expect (.term .subject))) := by
  by_cases hd : word.isDotted = true
  · have hend : s.endDirective word = s.expect (.directiveEnd word.word) := by
      simp [State.endDirective, hd]
    rw [hend, directiveEnd, if_pos hd]
    exact .single rfl
  · have hend : s.endDirective word = s.expect (.term .subject) := by
      simp [State.endDirective, hd]
    rw [hend, directiveEnd, if_neg hd]
    exact .nil _

theorem startsFree_directiveEnd (isDotted : Bool) {rest : List Lexeme} (h : StartsFree rest) :
    StartsFree (directiveEnd isDotted ++ rest) := by
  cases isDotted with
  | true => exact ⟨_, _, rfl, rfl⟩
  | false => exact h

theorem Outcome.of_scope (h : AtStatement s fresh) {g : Graph}
    (hseen : g.seen = s.graph.seen) (htriples : g.triples = s.graph.triples)
    (hvalid : (Scope.ofGraph g).Valid) :
    Outcome s fresh ({ s with graph := g }.expect (.term .subject)) ([] : List (ν × String)) [] []
      (.ofGraph g) fun _ _ => [] := by
  refine ⟨⟨rfl, h.waiting, ?_, hvalid⟩, id, rfl, by simp, rfl, fun _ _ => htriples⟩
  rw [List.append_nil]
  exact h.named.of_seen rfl fun _ hid => hseen ▸ hid

theorem AtStatement.step_directive (h : AtStatement s fresh) (directive : Directive) :
    s.step (.directive directive) = .ok (s.openDirective directive) := by
  rw [State.step_of_expecting (by simp [h.expecting])]
  simp [State.advance, h.expecting]

/-- The identifier that ends a directive. -/
theorem leads_directiveIri {s2 : State} {directive : Directive} {value : String} {g : Graph}
    (h : s2.step (.iri value) = .ok ({ s with graph := g }.endDirective directive)) :
    Leads s2 (.iri value :: directiveEnd directive.isDotted)
      (.ok ({ s with graph := g }.expect (.term .subject))) :=
  (Leads.single h).append (leads_directiveEnd directive) fun _ =>
    startsFree_directiveEnd directive.isDotted

theorem Statement.reads_space (word : String) (isDotted : Bool) (label value : String)
    (hat : AtStatement s fresh) (hname : (Name.iri value).InScope (.ofGraph s.graph)) :
    ∃ s1, Outcome s fresh s1 [] [] []
        ((space word isDotted label value : Statement ν).scopeAfter (.ofGraph s.graph))
        (fun _ _ => []) ∧
      Leads s (space word isDotted label value : Statement ν).lexemes (.ok s1) := by
  let directive : Directive := ⟨.label, word, isDotted⟩
  obtain ⟨hresolve, hvalid⟩ := State.resolve_eq_ok hname s.graph.namespaces
  let iri := (Scope.ofGraph s.graph).iri (.iri value)
  let g := s.graph.bind label iri
  have hg : (Scope.ofGraph g).Valid := by
    intro entry hentry
    cases mem_bindIn hentry with
    | inl he => exact he ▸ hvalid
    | inr hold => exact hat.valid entry hold
  refine ⟨{ s with graph := g }.expect (.term .subject),
    @Outcome.of_scope ν s fresh hat g rfl rfl hg, ?_⟩
  have hiri : (s.expect (.space directive label)).step (.iri value) =
      .ok ({ s with graph := g }.endDirective directive) := by
    rw [State.step_of_expecting (by simp [State.expect])]
    have hbase : State.resolve s.graph.base value = .ok iri := hresolve
    simp [State.advance, State.expect, hbase, State.endDirective, g]
  exact .cons (hat.step_directive directive) (.cons rfl (leads_directiveIri hiri))

theorem Statement.reads_base (word : String) (isDotted : Bool) (value : String)
    (hat : AtStatement s fresh) (hname : (Name.iri value).InScope (.ofGraph s.graph)) :
    ∃ s1, Outcome s fresh s1 [] [] []
        ((base word isDotted value : Statement ν).scopeAfter (.ofGraph s.graph))
        (fun _ _ => []) ∧
      Leads s (base word isDotted value : Statement ν).lexemes (.ok s1) := by
  let directive : Directive := ⟨.base, word, isDotted⟩
  obtain ⟨hresolve, -⟩ := State.resolve_eq_ok hname s.graph.namespaces
  let iri := (Scope.ofGraph s.graph).iri (.iri value)
  let g := s.graph.setBase (some iri)
  refine ⟨{ s with graph := g }.expect (.term .subject),
    @Outcome.of_scope ν s fresh hat g rfl rfl hat.valid, ?_⟩
  have hiri : (s.expect (.base directive)).step (.iri value) =
      .ok ({ s with graph := g }.endDirective directive) := by
    rw [State.step_of_expecting (by simp [State.expect])]
    have hbase : State.resolve s.graph.base value = .ok iri := hresolve
    simp [State.advance, State.expect, hbase, State.endDirective, g]
  exact .cons (hat.step_directive directive) (leads_directiveIri hiri)

theorem Outcome.of_effect {marks : List ν} {used : List String}
    {ts : Interpretation ν → List Triple} (hat : AtStatement s fresh)
    (h : Effect (Scope.ofGraph s.graph).iri s fresh s1 new marks used ts) (hw : s1.waiting = [])
    {triples : (String → String) → (ν → String) → List Triple}
    (hts : ∀ i : Interpretation ν, Agrees i s1 (fresh ++ new) →
      ts ⟨(Scope.ofGraph s.graph).iri, i.label, i.node⟩ = triples i.label i.node) :
    Outcome s fresh (s1.expect (.term .subject)) new marks used (.ofGraph s.graph) triples := by
  have hscope : Scope.ofGraph s1.graph = .ofGraph s.graph := by
    rw [Scope.ofGraph, h.kept.base, h.kept.spaces, Scope.ofGraph]
  refine ⟨⟨rfl, hw, h.named.of_seen rfl fun _ hid => hid, ?_⟩, h.kept.labels, h.marks, h.used,
    hscope, fun i ha => ?_⟩
  · have hvalid := hat.valid
    rwa [← hscope] at hvalid
  · have hagrees : Agrees i s1 (fresh ++ new) := ⟨ha.labels, ha.nodes⟩
    rw [← hts i hagrees]
    exact h.triples _ rfl ⟨ha.labels, ha.nodes⟩

theorem Statement.reads_triples (subject : Phrase ν .resource) (content : Phrase ν .predicates)
    (hat : AtStatement s fresh)
    (hnames : ∀ n ∈ (triples subject content).names, n.InScope (.ofGraph s.graph))
    (hproper : ∀ l ∈ (triples subject content).lexemes, l.Proper)
    (hdepth : (triples subject content).depth ≤ maxNesting) :
    ∃ s1 new, Outcome s fresh s1 new (triples subject content).marks
        (triples subject content).labels (.ofGraph s.graph) (fun label node =>
          (triples subject content).added (.ofGraph s.graph) label node) ∧
      Leads s (triples subject content).lexemes (.ok s1) := by
  let iri := (Scope.ofGraph s.graph).iri
  have hresolves : ∀ n ∈ (triples subject content).names,
      State.iri? s.graph n.lexeme = some (.ok (iri n)) := fun n hn =>
    Name.iri?_eq hat.valid (hnames n hn)
  simp only [names, lexemes, depth] at hresolves hproper hdepth
  have hready1 : Ready iri s fresh subject := by
    refine ⟨hat.named, fun n hn => hresolves n (List.mem_append_left _ hn),
      fun l hl => hproper l (by simp [hl]), ?_⟩
    rw [hat.waiting]
    exact Nat.le_trans (Nat.le_max_left _ _) hdepth
  obtain ⟨s1, new1, node, hdoes1, hnode, hagree, hleads1⟩ :=
    subject.runs hready1 hat.expecting
  let s2 := s1.expect (if subject.mayEnd then .anyPredicate node else .predicate node)
  have htakes : s2.TakesPredicate node := by
    by_cases hm : subject.mayEnd = true
    · exact .inr (.inr (.inl (by simp [s2, State.expect, hm])))
    · exact .inl (by simp [s2, State.expect, hm])
  have heffect1 : Effect iri s fresh s2 new1 subject.marks subject.labels
      (subject.triples · node node) := (hdoes1 node node).1.move s1.waiting _
  have hwaiting1 : s2.waiting = [] := (hdoes1 node node).2.trans hat.waiting
  have hready2 : Ready iri s2 (fresh ++ new1) content := by
    refine ⟨heffect1.named, fun n hn => ?_, fun l hl => hproper l (by simp [hl]), ?_⟩
    · rw [heffect1.kept.iri?_eq]
      exact hresolves n (List.mem_append_right _ hn)
    · rw [hwaiting1]
      exact Nat.le_trans (Nat.le_max_right _ _) hdepth
  obtain ⟨s3, new2, hdoes2, hend, hleads2⟩ := content.runs hready2 hnode htakes
  have hwaiting2 : s3.waiting = [] := (hdoes2 node).2.trans hwaiting1
  refine ⟨s3.expect (.term .subject), new1 ++ new2, ?_, ?_⟩
  · refine .of_effect hat (heffect1.trans (hdoes2 node).1) hwaiting2 fun i ha => ?_
    rw [← List.append_assoc] at ha
    have hfirst := ha.of_kept (hdoes2 node).1.kept
    have hterm := hagree ⟨iri, i.label, i.node⟩ rfl ⟨hfirst.labels, hfirst.nodes⟩
    rw [hterm]
    rfl
  · have hrow := (hleads1.append hleads2 fun _ => content.startsFree).snoc
      (State.step_dot (.inl hend) hwaiting2) rfl
    exact hrow

theorem Statement.reads_lone (mark : ν) (content : Phrase ν .predicates)
    (hat : AtStatement s fresh)
    (hnames : ∀ n ∈ (lone mark content).names, n.InScope (.ofGraph s.graph))
    (hproper : ∀ l ∈ (lone mark content).lexemes, l.Proper)
    (hdepth : (lone mark content).depth ≤ maxNesting) :
    ∃ s1 new, Outcome s fresh s1 new (lone mark content).marks (lone mark content).labels
        (.ofGraph s.graph) (fun label node => (lone mark content).added (.ofGraph s.graph) label node) ∧
      Leads s (lone mark content).lexemes (.ok s1) := by
  let bracket := Phrase.bracket mark content
  have hready : Ready (Scope.ofGraph s.graph).iri s fresh bracket := by
    refine ⟨hat.named, fun n hn => Name.iri?_eq hat.valid (hnames n hn),
      fun l hl => hproper l (List.mem_append_left _ hl), ?_⟩
    rw [hat.waiting]
    exact hdepth
  obtain ⟨s1, new, node, hdoes, -, hagree, hleads⟩ := bracket.runs hready hat.expecting
  have hwaiting : s1.waiting = [] := (hdoes node node).2.trans hat.waiting
  refine ⟨s1.expect (.term .subject), new, ?_, ?_⟩
  · refine .of_effect hat (hdoes node node).1 hwaiting fun i ha => ?_
    have hterm := hagree ⟨(Scope.ofGraph s.graph).iri, i.label, i.node⟩ rfl ⟨ha.labels, ha.nodes⟩
    rw [hterm]
    rfl
  · have hdot := @State.step_dot (s1.expect (.anyPredicate node)) node (.inr rfl) hwaiting
    exact hleads.snoc hdot rfl

/-- The reader takes a statement in scope and stands before the next. -/
theorem Statement.reads (statement : Statement ν) (hat : AtStatement s fresh)
    (hnames : ∀ n ∈ statement.names, n.InScope (.ofGraph s.graph))
    (hproper : ∀ l ∈ statement.lexemes, l.Proper) (hdepth : statement.depth ≤ maxNesting) :
    ∃ s1 new, Outcome s fresh s1 new statement.marks statement.labels
        (statement.scopeAfter (.ofGraph s.graph)) (fun label node =>
          statement.added (.ofGraph s.graph) label node) ∧
      Leads s statement.lexemes (.ok s1) := by
  cases statement with
  | space word isDotted label value =>
    obtain ⟨s1, h⟩ := reads_space word isDotted label value hat (hnames _ List.mem_cons_self)
    exact ⟨s1, [], h⟩
  | base word isDotted value =>
    obtain ⟨s1, h⟩ := reads_base word isDotted value hat (hnames _ List.mem_cons_self)
    exact ⟨s1, [], h⟩
  | triples subject content => exact reads_triples subject content hat hnames hproper hdepth
  | lone mark content => exact reads_lone mark content hat hnames hproper hdepth

/-! ### Documents -/

theorem Statement.startsFree (statement : Statement ν) (rest : List Lexeme) :
    StartsFree (statement.lexemes ++ rest) := by
  cases statement with
  | triples subject content =>
    simp only [lexemes, List.append_assoc]
    exact subject.startsFree (content.startsFree ⟨_, _, rfl, rfl⟩)
  | space _ _ _ _ | base _ _ _ | lone _ _ => exact ⟨_, _, rfl, rfl⟩

theorem Document.startsFree (document : Document ν) {rest : List Lexeme} (h : StartsFree rest) :
    StartsFree (document.lexemes ++ rest) := by
  cases document with
  | nil => exact h
  | cons statement document =>
    simp only [lexemes, List.flatMap_cons, List.append_assoc]
    exact statement.startsFree _

theorem Outcome.trans {s2 : State} {new' : List (ν × String)} {marks marks' : List ν}
    {used used' : List String} {scope scope' : Scope}
    {ts ts' : (String → String) → (ν → String) → List Triple}
    (h1 : Outcome s fresh s1 new marks used scope ts)
    (h2 : Outcome s1 (fresh ++ new) s2 new' marks' used' scope' ts') :
    Outcome s fresh s2 (new ++ new') (marks ++ marks') (used ++ used') scope' fun label node =>
      ts label node ++ ts' label node := by
  refine ⟨?_, fun h => h2.labels (h1.labels h), ?_, ?_, h2.scope, fun i ha => ?_⟩
  · rw [← List.append_assoc]
    exact h2.atStatement
  · rw [List.map_append, h1.marks, h2.marks]
  · refine List.forall_mem_append.2 ⟨fun label hlabel => ?_, h2.used⟩
    obtain ⟨node, hnode⟩ := Option.isSome_iff_exists.1 (h1.used label hlabel)
    exact Option.isSome_iff_exists.2 ⟨node, h2.labels hnode⟩
  · rw [← List.append_assoc] at ha
    have hold : Agrees i s1 (fresh ++ new) :=
      ⟨fun hl => ha.labels (h2.labels hl), fun entry he => ha.nodes entry (List.mem_append_left _ he)⟩
    have hboth : s.graph.addAll (ts i.label i.node ++ ts' i.label i.node) =
        (s.graph.addAll (ts i.label i.node)).addAll (ts' i.label i.node) := List.foldl_append
    rw [h2.triples i ha, hboth]
    exact Graph.addAll_congr (h1.triples i hold) _

theorem Document.reads (document : Document ν) (hat : AtStatement s fresh)
    (hscope : document.InScope (.ofGraph s.graph)) (hproper : ∀ l ∈ document.lexemes, l.Proper)
    (hshallow : document.IsShallow) :
    ∃ s1 new, Outcome s fresh s1 new document.marks document.labels
        (document.scopeAfter (.ofGraph s.graph)) (fun label node =>
          document.triples label node (.ofGraph s.graph)) ∧
      Leads s document.lexemes (.ok s1) := by
  induction document generalizing s fresh with
  | nil =>
    refine ⟨s, [], ⟨?_, id, rfl, by simp [labels], rfl, fun _ _ => rfl⟩, .nil s⟩
    rwa [List.append_nil]
  | cons statement document ih =>
    have hlexemes : lexemes (statement :: document) = statement.lexemes ++ lexemes document :=
      List.flatMap_cons
    rw [hlexemes] at hproper ⊢
    obtain ⟨hnames, hrest⟩ := hscope
    obtain ⟨hdepth, hdeeper⟩ := List.forall_mem_cons.1 hshallow
    obtain ⟨s1, new1, houtcome1, hleads1⟩ := statement.reads hat hnames
      (fun l hl => hproper l (List.mem_append_left _ hl)) hdepth
    rw [← houtcome1.scope] at hrest
    obtain ⟨s2, new2, houtcome2, hleads2⟩ := ih houtcome1.atStatement hrest
      (fun l hl => hproper l (List.mem_append_right _ hl)) hdeeper
    rw [houtcome1.scope] at houtcome2
    refine ⟨s2, new1 ++ new2, ?_, hleads1.append hleads2 fun _ => Document.startsFree document⟩
    have hboth := houtcome1.trans houtcome2
    simpa [marks, labels, scopeAfter, triples] using hboth

/-- A document in scope is read to its end. -/
theorem Document.runs (document : Document ν) (base : Option Iri)
    (hscope : document.InScope ⟨base, []⟩) (hproper : ∀ l ∈ document.lexemes, l.Proper)
    (hshallow : document.IsShallow) :
    ∃ (s : State) (new : List (ν × String)),
      machine.runLexemes { graph := { base } } (document.lexemes ++ [.eof]) =
          .ok (s.expect .nothing) ∧
        Outcome { graph := { base } } [] s new document.marks document.labels
          (document.scopeAfter ⟨base, []⟩) fun label node => document.triples label node ⟨base, []⟩ := by
  have hat : AtStatement { graph := { base } } ([] : List (ν × String)) :=
    ⟨rfl, rfl, ⟨List.nodup_nil, by simp [givenNodes]⟩, by simp [Scope.Valid, Scope.ofGraph]⟩
  obtain ⟨s, new, houtcome, hleads⟩ := document.reads hat hscope hproper hshallow
  refine ⟨s, new, ?_, houtcome⟩
  rw [hleads [.eof] ⟨_, _, rfl, rfl⟩]
  have hend := houtcome.atStatement.expecting
  simp [Except.bind, Machine.runLexemes, machine, State.step, State.advance, hend]

end Rdf.Turtle

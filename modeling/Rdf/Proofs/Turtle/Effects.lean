import Rdf.Proofs.Document.Runs
import Rdf.Proofs.Turtle.Naming

/-!
Steps of the reader of Turtle and their effects.

`Leads` follows the reader over the lexemes of a phrase, and `Effect` says what that does to the
graph: which marks take a node and which triples are added. Both are put together from step to
step.
-/

namespace Rdf

/-- The lexeme may belong to the string before it. -/
def Lexeme.isSuffix : Lexeme → Bool
  | .languageTag _ | .datatypeMark => true
  | _ => false

/-- The lexeme begins a term wherever one is expected. -/
def Lexeme.beginsTerm : Lexeme → Bool
  | .iri _ | .name _ _ | .blank _ | .string _ _ | .number _ _ | .boolean _ => true
  | .punct .openBracket | .punct .openParen => true
  | _ => false

/-- No label and no tag is empty. -/
def Lexeme.Proper : Lexeme → Prop
  | .blank label => label ≠ ""
  | .languageTag tag => tag ≠ ""
  | _ => True

theorem Term.isTerm_of_isResource {t : Term} (h : t.isResource = true) : t.isTerm = true := by
  cases t <;> first | rfl | simp [isResource] at h

namespace Turtle

open Refusal

variable {ν : Type} {s s1 s2 : State} {fresh new new' : List (ν × String)} {target : Target}
  {l : Lexeme} {first second : List Lexeme} {next : Except Refusal State}

/-! ### Going on -/

/-- The text goes on, and not with the suffix of a string. -/
def StartsFree (rest : List Lexeme) : Prop :=
  ∃ lexeme more, rest = lexeme :: more ∧ lexeme.isSuffix = false

/-- Some lexemes lead from a state to the next, whatever comes behind them. -/
def Leads (s : State) (lexemes : List Lexeme) (next : Except Refusal State) : Prop :=
  ∀ rest, StartsFree rest →
    machine.runLexemes s (lexemes ++ rest) = next.bind (machine.runLexemes · rest)

namespace Leads

theorem nil (s : State) : Leads s [] (.ok s) := fun _ _ => rfl

theorem single (h : s.step l = next) : Leads s [l] next := by
  intro rest _
  have hstep : machine.step s l = next := h
  simp only [List.singleton_append, Machine.runLexemes, hstep]
  cases next <;> rfl

theorem cons (h : s.step l = .ok s1) (hs : Leads s1 second next) :
    Leads s (l :: second) next := by
  intro rest hrest
  have hstep : machine.step s l = .ok s1 := h
  simp only [List.cons_append, Machine.runLexemes, hstep]
  exact hs rest hrest

theorem append (h1 : Leads s first (.ok s1)) (h2 : Leads s1 second next)
    (hfree : ∀ rest, StartsFree rest → StartsFree (second ++ rest)) :
    Leads s (first ++ second) next := by
  intro rest hrest
  rw [List.append_assoc, h1 _ (hfree rest hrest)]
  exact h2 rest hrest

theorem snoc (h1 : Leads s first (.ok s1)) (h2 : s1.step l = next)
    (hfree : l.isSuffix = false) : Leads s (first ++ [l]) next :=
  h1.append (.single h2) fun rest _ => ⟨l, rest, rfl, hfree⟩

end Leads

/-! ### Effects -/

/-- Reading goes from a state to another: some marks take new nodes, some labels have theirs, and
the triples that a phrase adds are added to the graph. -/
structure Effect (iri : Name → Iri) (s : State) (fresh : List (ν × String)) (s1 : State)
    (new : List (ν × String)) (marks : List ν) (used : List String)
    (triples : Interpretation ν → List Triple) : Prop where
  kept : Kept s s1
  named : Named s1 (fresh ++ new)
  marks : new.map (·.1) = marks
  used : ∀ label ∈ used, (s1.labels.lookup label).isSome
  triples : ∀ i, i.iri = iri → Agrees i s1 (fresh ++ new) →
    s1.graph.triples = (s.graph.addAll (triples i)).triples

namespace Effect

variable {iri : Name → Iri} {marks marks' : List ν} {used used' : List String}
  {ts ts' : Interpretation ν → List Triple}

theorem trans (h1 : Effect iri s fresh s1 new marks used ts)
    (h2 : Effect iri s1 (fresh ++ new) s2 new' marks' used' ts') :
    Effect iri s fresh s2 (new ++ new') (marks ++ marks') (used ++ used') fun i =>
      ts i ++ ts' i := by
  refine ⟨h1.kept.trans h2.kept, ?_, ?_, ?_, fun i hi ha => ?_⟩
  · rw [← List.append_assoc]
    exact h2.named
  · rw [List.map_append, h1.marks, h2.marks]
  · refine List.forall_mem_append.2 ⟨fun label hlabel => ?_, h2.used⟩
    obtain ⟨node, hnode⟩ := Option.isSome_iff_exists.1 (h1.used label hlabel)
    exact Option.isSome_iff_exists.2 ⟨node, h2.kept.labels hnode⟩
  · rw [← List.append_assoc] at ha
    have hfirst := h1.triples i hi (ha.of_kept h2.kept)
    have hboth : s.graph.addAll (ts i ++ ts' i) = (s.graph.addAll (ts i)).addAll (ts' i) :=
      List.foldl_append
    rw [h2.triples i hi ha, hboth]
    exact Graph.addAll_congr hfirst _

theorem congr (h : Effect iri s fresh s1 new marks used ts) (hmarks : marks = marks')
    (hused : used = used') (hts : ∀ i, i.iri = iri → Agrees i s1 (fresh ++ new) → ts i = ts' i) :
    Effect iri s fresh s1 new marks' used' ts' :=
  ⟨h.kept, h.named, h.marks.trans hmarks, hused ▸ h.used,
    fun i hi ha => hts i hi ha ▸ h.triples i hi ha⟩

/-- Nothing changes but what is expected and what waits. -/
theorem same (h : Named s fresh) (waiting : List Target) (expecting : Expecting) :
    Effect iri s fresh { s with waiting, expecting } [] [] [] fun _ => [] :=
  ⟨⟨rfl, rfl, id⟩, (List.append_nil fresh).symm ▸ h.of_seen rfl fun _ hid => hid, rfl, by simp,
    fun _ _ _ => rfl⟩

/-- The end of an effect may stand at other places. -/
theorem move (h : Effect iri s fresh s1 new marks used ts) (waiting : List Target)
    (expecting : Expecting) :
    Effect iri s fresh { s1 with waiting, expecting } new marks used ts := by
  refine ⟨h.kept.trans ⟨rfl, rfl, id⟩, h.named.of_seen rfl fun _ hid => hid, h.marks, h.used,
    fun i hi ha => ?_⟩
  exact h.triples i hi ⟨ha.labels, ha.nodes⟩

theorem mint (h : Named s fresh) (mark : ν) :
    Effect iri s fresh { s with graph := s.graph.mint.2 } [(mark, s.graph.mint.1)] [mark] []
      fun _ => [] :=
  ⟨.mint s, h.mint mark, rfl, by simp, fun _ _ _ => rfl⟩

theorem mintMany (h : Named s fresh) (marks : List ν) :
    Effect iri s fresh { s with graph := (s.graph.mintMany marks.length).2 }
      (marks.zip (s.graph.mintMany marks.length).1) marks [] fun _ => [] := by
  obtain ⟨hkept, hlength, htriples, hnamed⟩ := h.mintMany marks
  refine ⟨hkept, hnamed, ?_, by simp, fun _ _ _ => htriples⟩
  rw [List.map_fst_zip (by omega)]

theorem addAll (h : Named s fresh) (added : List Triple)
    (hts : ∀ i, i.iri = iri → Agrees i s fresh → added = ts i) :
    Effect iri s fresh { s with graph := s.graph.addAll added } [] [] [] ts := by
  obtain ⟨hbase, hspaces⟩ := scope_addAll s.graph added
  refine ⟨⟨hbase, hspaces, id⟩, ?_, rfl, by simp, fun i hi ha => ?_⟩
  · exact (List.append_nil fresh).symm ▸ h.of_seen rfl (seen_addAll s.graph added)
  · rw [hts i hi ⟨ha.labels, fun entry he => ha.nodes entry (List.mem_append_left _ he)⟩]

end Effect

/-! ### Steps -/

namespace State

theorem step_of_expecting (h : ∀ value target, s.expecting ≠ .suffix value target) :
    s.step l = s.advance l := by
  cases he : s.expecting with
  | suffix value target => exact (h value target he).elim
  | _ => simp only [step, he]

/-- A delivered term does not wait for a suffix. -/
theorem step_of_deliver {term : Term} {mayEnd : Bool}
    (h : s.deliver term mayEnd target = .ok s1) : s1.step l = s1.advance l := by
  apply step_of_expecting
  intro value other he
  cases target with
  | subject =>
    obtain rfl := Except.ok.inj h
    cases mayEnd <;> simp [expect] at he
  | object subject predicate =>
    simp only [deliver] at h
    split at h
    · simp at h
    · obtain rfl := Except.ok.inj h
      simp [expect] at he
  | item items =>
    obtain rfl := Except.ok.inj h
    simp [expect] at he

theorem addTriple_eq_ok {subject predicate object : Term} (hs : subject.isResource = true)
    (hp : predicate.isIri = true) (ho : object.isTerm = true) :
    s.addTriple subject predicate object =
      .ok { s with graph := s.graph.add ⟨subject, predicate, object⟩ } := by
  have hmake : Triple.make subject predicate object = .ok ⟨subject, predicate, object⟩ :=
    Triple.make_eq_ok_iff.2 ⟨rfl, hs, hp, ho⟩
  simp [addTriple, hmake, checked]

theorem deliver_object {subject predicate object : Term} {mayEnd : Bool}
    (hs : subject.isResource = true) (hp : predicate.isIri = true) (ho : object.isTerm = true) :
    s.deliver object mayEnd (.object subject predicate) =
      .ok ({ s with graph := s.graph.add ⟨subject, predicate, object⟩ }.expect
        (.more subject predicate)) := by
  simp [deliver, addTriple_eq_ok hs hp ho]

/-- Only subjects make a difference of brackets with something in them. -/
theorem deliver_mayEnd (h : target ≠ .subject) (term : Term) (mayEnd : Bool) :
    s.deliver term mayEnd target = s.deliver term false target := by
  cases target <;> first | rfl | exact (h rfl).elim

theorem deliverLiteral_eq {value : String} {language : Option String} {datatype : Option Iri}
    (hlanguage : language ≠ some "") (hsingle : language = none ∨ datatype = none) :
    s.deliverLiteral value language datatype target =
      s.deliver (.literal ⟨value, language, datatype⟩) false target := by
  have hmake : Literal.make (.text value) language (datatype.map .proper) =
      .ok ⟨value, language, datatype⟩ := by
    cases language with
    | none => cases datatype <;> simp [Literal.make]
    | some tag =>
      obtain rfl : datatype = none := by simpa using hsingle
      simpa [Literal.make] using hlanguage
  simp [deliverLiteral, hmake, checked]

theorem step_term (h : s.expecting = .term target) (hl : l.beginsTerm = true) :
    s.step l = s.beginTerm target l := by
  rw [step_of_expecting (by simp [h])]
  revert hl
  cases l with
  | punct mark => cases mark <;> cases target <;> simp [Lexeme.beginsTerm, advance, h]
  | _ => cases target <;> simp [Lexeme.beginsTerm, advance, h]

theorem nest_eq_ok (h : s.waiting.length < maxNesting) :
    s.nest target = .ok { s with waiting := target :: s.waiting } := by
  simp [nest, Nat.not_le.2 h]

/-- The triples of a collection are added in their order. -/
theorem chain_eq_ok {links : List (Term × Term)}
    (h : ∀ link ∈ links, link.1.isResource = true ∧ link.2.isTerm = true) :
    s.chain links = .ok { s with graph := s.graph.addAll (chainTriples links) } := by
  induction links generalizing s with
  | nil => rfl
  | cons link rest ih =>
    obtain ⟨⟨hcell, hitem⟩, hrest⟩ := List.forall_mem_cons.1 h
    obtain ⟨cell, item⟩ := link
    have hfirst : (Term.iri Vocabulary.first).isIri = true := rfl
    have hsecond : (Term.iri Vocabulary.rest).isIri = true := rfl
    cases rest with
    | nil =>
      have hnil : (Term.iri Vocabulary.nil).isTerm = true := rfl
      simp only [chain, addTriple_eq_ok hcell hfirst hitem, addTriple_eq_ok hcell hsecond hnil]
      rfl
    | cons next rest =>
      have hnext := Term.isTerm_of_isResource (hrest next List.mem_cons_self).1
      rw [chain]
      simp only [addTriple_eq_ok hcell hfirst hitem, addTriple_eq_ok hcell hsecond hnext]
      exact ih hrest

end State

end Turtle

end Rdf

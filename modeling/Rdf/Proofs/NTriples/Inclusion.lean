import Rdf.NTriples.Reader
import Rdf.Proofs.Isomorphism.Renaming
import Rdf.Proofs.Turtle.Statements

/-!
N-Triples in Turtle.

The reader of Turtle follows the reader of N-Triples from token to token. It adds a triple as soon
as the object is complete, while the dot is still to come. Labels of blank nodes are in its table
when the graph has seen them, and stand for themselves.
-/

namespace Rdf

/-! ### Graphs -/

namespace Graph

variable {g : Graph} {t : Triple} {nodeId : String}

/-- The graph with another base. -/
def withBase (g : Graph) (base : Option Iri) : Graph := { g with base }

theorem see_withBase (g : Graph) (base : Option Iri) (nodeId : String) :
    (g.withBase base).see nodeId = (g.see nodeId).withBase base := by
  have hsame : (g.withBase base).hasSeen nodeId = g.hasSeen nodeId := rfl
  simp only [see, hsame]
  split <;> rfl

theorem add_withBase (g : Graph) (base : Option Iri) (t : Triple) :
    (g.withBase base).add t = (g.add t).withBase base := by
  have hsame : (g.withBase base).has t = g.has t := rfl
  have hfold : ∀ (ids : List String) (g : Graph),
      ids.foldl see (g.withBase base) = (ids.foldl see g).withBase base := by
    intro ids
    induction ids with
    | nil => exact fun _ => rfl
    | cons nodeId ids ih =>
      intro g
      rw [List.foldl_cons, see_withBase, ih, List.foldl_cons]
  simp only [add, hsame, hfold]
  split <;> rfl

/-- The graph has seen the term, if it is a blank node. -/
def Knows (g : Graph) (t : Term) : Prop := ∀ nodeId, t = .blank nodeId → nodeId ∈ g.seen

theorem Knows.see {t : Term} (h : g.Knows t) (nodeId : String) : (g.see nodeId).Knows t :=
  fun other he => (Turtle.seen_see g nodeId).1 (h other he)

theorem knows_see (g : Graph) (nodeId : String) : (g.see nodeId).Knows (.blank nodeId) := by
  intro other he
  obtain rfl := Term.blank.inj he
  exact (Turtle.seen_see g nodeId).2

theorem seen_add_of_knows (hs : g.Knows t.subject) (ho : g.Knows t.object) :
    (g.add t).seen = g.seen := by
  refine seen_add_of_subset fun nodeId hid => ?_
  cases mem_blankIds.1 hid with
  | inl he => exact hs nodeId he
  | inr he => exact ho nodeId he

end Graph

namespace NTriples

variable {base : Option Iri} {s s1 : State} {t : Turtle.State} {l : Lexeme}

/-! ### States that match -/

/-- What the reader of Turtle expects in place of it. -/
def Expecting.inTurtle : Expecting → Turtle.Expecting
  | .subject => .term .subject
  | .predicate s => .predicate s
  | .object s p => .term (.object s p)
  | .suffix s p value => .suffix value (.object s p)
  | .datatype s p value => .datatype value (.object s p)
  | .dot s p _ => .more s p
  | .nothing => .nothing

/-- The terms read so far fit their places, and the graph has seen them. -/
def Expecting.Fits (g : Graph) : Expecting → Prop
  | .subject | .nothing => True
  | .predicate s => s.isResource = true ∧ g.Knows s
  | .object s p | .suffix s p _ | .datatype s p _ =>
    s.isResource = true ∧ g.Knows s ∧ p.isIri = true
  | .dot s p o => Triple.WellFormed ⟨s, p, o⟩ ∧ g.Knows s ∧ g.Knows o

/-- The graph with the triple whose dot is still to come. -/
def State.early (s : State) : Graph :=
  match s.expecting with
  | .dot subject predicate object => s.graph.add ⟨subject, predicate, object⟩
  | _ => s.graph

/-- The table of labels has those that the graph has seen, each for itself. -/
def Verbatim (g : Graph) (labels : List (String × Term)) : Prop :=
  ∀ label, labels.lookup label = if label ∈ g.seen then some (.blank label) else none

/-- The reader of Turtle has read the same, and nothing that changes a base or a namespace. -/
structure Matches (base : Option Iri) (s : State) (t : Turtle.State) : Prop where
  graph : t.graph = s.early.withBase base
  scope : s.graph.base = none ∧ s.graph.namespaces = []
  labels : Verbatim s.graph t.labels
  waiting : t.waiting = []
  expecting : t.expecting = s.expecting.inTurtle
  fits : s.expecting.Fits s.graph

namespace Matches

theorem expect (h : Matches base s t) {next : Expecting} (hearly : (s.expect next).early = s.early)
    (hfits : next.Fits s.graph) : Matches base (s.expect next) (t.expect next.inTurtle) :=
  ⟨h.graph.trans (by rw [hearly]), h.scope, h.labels, h.waiting, rfl, hfits⟩

/-- The reader of Turtle adds the triple whose dot is still to come. -/
theorem object (h : Matches base s t) (hearly : s.early = s.graph) {subject predicate object : Term}
    (hfits : (Expecting.dot subject predicate object).Fits s.graph) :
    t.deliver object false (.object subject predicate) =
        .ok ({ t with graph := t.graph.add ⟨subject, predicate, object⟩ }.expect
          (.more subject predicate)) ∧
      Matches base (s.expect (.dot subject predicate object))
        ({ t with graph := t.graph.add ⟨subject, predicate, object⟩ }.expect
          (.more subject predicate)) := by
  obtain ⟨hs, hp, ho⟩ := hfits.1
  refine ⟨Turtle.State.deliver_object hs hp ho, ?_, h.scope, h.labels, h.waiting, rfl, hfits⟩
  have hgraph := h.graph
  rw [hearly] at hgraph
  simp only [Turtle.State.expect, hgraph, Graph.add_withBase]
  rfl

end Matches

/-! ### Identifiers and labels -/

theorem eq_of_iri {role : Role} {name : Iri} (h : State.iri role l = .ok name) :
    l = .iri name.value ∧ name.isAbsolute = true := by
  cases l with
  | iri value =>
    by_cases hscheme : hasScheme value.toList = true
    · have hvalue : value ≠ "" := @Iri.Valid.of_isAbsolute ⟨value⟩ hscheme
      obtain rfl : ⟨value⟩ = name := by
        simpa [State.iri, hscheme, Iri.ofText, hvalue, Refusal.checked] using h
      exact ⟨rfl, hscheme⟩
    · simp [State.iri, hscheme, Refusal.refuse] at h
  | _ => simp [State.iri, Refusal.refuse] at h

theorem iri?_of_isAbsolute (g : Graph) {name : Iri} (h : name.isAbsolute = true) :
    Turtle.State.iri? g (.iri name.value) = some (.ok name) := by
  have hscheme : hasScheme name.value.toList = true := h
  simp [Turtle.State.iri?, Turtle.State.resolve, hscheme, Iri.ofText_value (.of_isAbsolute h),
    Refusal.checked]

theorem eq_of_blank {label : String} {node : Term} (h : s.blank label = .ok (node, s1)) :
    label ≠ "" ∧ node = .blank label ∧ s1 = { s with graph := s.graph.see label } := by
  by_cases hlabel : label = ""
  · simp [State.blank, hlabel, Graph.reserve, Term.ofBlankId, Refusal.checked, bind,
      Except.bind] at h
  · simp only [State.blank, Graph.reserve, Term.ofBlankId, hlabel, if_false, bind, Except.bind,
      pure, Except.pure, Refusal.checked, Term.blankId?, Option.elim, Except.ok.injEq,
      Prod.mk.injEq] at h
    exact ⟨hlabel, h.1.symm, h.2.symm⟩

theorem Verbatim.see {g : Graph} {labels : List (String × Term)} (h : Verbatim g labels)
    {label : String} (hlabel : label ∉ g.seen) :
    Verbatim (g.see label) ((label, .blank label) :: labels) := by
  intro other
  have hseen : (g.see label).seen = g.seen ++ [label] := by simp [Graph.see, Graph.hasSeen, hlabel]
  by_cases he : other = label
  · simp [he, hseen]
  · have hbeq : (other == label) = false := by simpa using he
    simp [List.lookup_cons, hbeq, h other, hseen, he]

/-- A label stands for itself in Turtle as well. -/
theorem Matches.blank (h : Matches base s t) (hearly : s.early = s.graph) {label : String}
    {node : Term} (hblank : s.blank label = .ok (node, s1)) :
    ∃ t1, t.nodeOfLabel label = .ok (node, t1) ∧ t1.expecting = t.expecting ∧
      t1.waiting = [] ∧ t1.graph = s1.graph.withBase base ∧ Verbatim s1.graph t1.labels ∧
      s1.graph.base = none ∧ s1.graph.namespaces = [] := by
  obtain ⟨hlabel, rfl, rfl⟩ := eq_of_blank hblank
  obtain ⟨hbase, hspaces⟩ := Turtle.scope_foldl_see s.graph [label]
  have hscope := And.intro (hbase.trans h.scope.1) (hspaces.trans h.scope.2)
  have hgraph := h.graph
  rw [hearly] at hgraph
  have hlookup := h.labels label
  by_cases hseen : label ∈ s.graph.seen
  · refine ⟨t, ?_, rfl, h.waiting, ?_, ?_, hscope⟩
    · simp [Turtle.State.nodeOfLabel, hlookup, hseen]
    · rw [hgraph, Graph.see_of_mem hseen]
    · simpa only [Graph.see_of_mem hseen] using h.labels
  · have hhas : t.graph.hasSeen label = false := by
      simpa [hgraph, Graph.hasSeen, Graph.withBase] using hseen
    refine ⟨{ t with graph := t.graph.see label, labels := (label, .blank label) :: t.labels },
      ?_, rfl, h.waiting, ?_, h.labels.see hseen, hscope⟩
    · simp [Turtle.State.nodeOfLabel, hlookup, hseen, hhas, Graph.reserve, Term.ofBlankId, hlabel,
        bind, Except.bind, pure, Except.pure, Refusal.checked, Term.blankId?]
    · simp only [hgraph, Graph.see_withBase]

/-! ### Steps -/

/-- A state that expects anything but the dot has no triple to come. -/
theorem State.early_eq (h : ∀ subject predicate object,
    s.expecting ≠ .dot subject predicate object) : s.early = s.graph := by
  cases he : s.expecting with
  | dot subject predicate object => exact (h subject predicate object he).elim
  | _ => simp only [early, he]

namespace Matches

theorem step_subject (h : Matches base s t) (he : s.expecting = .subject)
    (hs : s.step l = .ok s1) : ∃ t1, t.step l = .ok t1 ∧ Matches base s1 t1 := by
  have hearly : s.early = s.graph := State.early_eq (by simp [he])
  have hterm : t.expecting = .term .subject := by rw [h.expecting, he]; rfl
  have hname : ∀ {name : Iri}, name.isAbsolute = true → l = .iri name.value →
      s1 = s.expect (.predicate (.iri name)) → ∃ t1, t.step l = .ok t1 ∧ Matches base s1 t1 := by
    rintro name habsolute rfl rfl
    refine ⟨t.expect (.predicate (.iri name)), ?_,
      h.expect hearly.symm ⟨rfl, by simp [Graph.Knows]⟩⟩
    rw [Turtle.State.step_term hterm rfl]
    simp [Turtle.State.beginTerm, iri?_of_isAbsolute t.graph habsolute, Turtle.State.deliver]
  cases l with
  | eof =>
    simp only [State.step, he] at hs
    obtain rfl := Except.ok.inj hs
    exact ⟨t.expect .nothing, by simp [Turtle.State.step, Turtle.State.advance, hterm],
      h.expect hearly.symm trivial⟩
  | blank label =>
    simp only [State.step, he] at hs
    split at hs
    · simp at hs
    · next node s2 hblank =>
      obtain rfl := Except.ok.inj hs
      obtain ⟨t1, hnode, -, hwaiting, hgraph, hlabels, hscope⟩ := h.blank hearly hblank
      refine ⟨t1.expect (.predicate node), ?_, hgraph, hscope, hlabels, hwaiting, rfl, ?_⟩
      · rw [Turtle.State.step_term hterm rfl]
        simp [Turtle.State.beginTerm, Turtle.State.iri?, hnode, Turtle.State.deliver]
      · obtain ⟨-, rfl, rfl⟩ := eq_of_blank hblank
        exact ⟨rfl, Graph.knows_see s.graph label⟩
  | _ =>
    simp only [State.step, he] at hs
    split at hs
    · simp at hs
    · next name hiri =>
      obtain ⟨hl, habsolute⟩ := eq_of_iri hiri
      exact hname habsolute hl (Except.ok.inj hs).symm

theorem step_predicate (h : Matches base s t) {subject : Term}
    (he : s.expecting = .predicate subject) (hs : s.step l = .ok s1) :
    ∃ t1, t.step l = .ok t1 ∧ Matches base s1 t1 := by
  have hearly : s.early = s.graph := State.early_eq (by simp [he])
  have hterm : t.expecting = .predicate subject := by rw [h.expecting, he]; rfl
  have hfits := h.fits
  rw [he] at hfits
  simp only [State.step, he] at hs
  split at hs
  · simp at hs
  · next name hiri =>
    obtain ⟨rfl, habsolute⟩ := eq_of_iri hiri
    obtain rfl := Except.ok.inj hs
    refine ⟨t.expect (.term (.object subject (.iri name))), ?_,
      h.expect hearly.symm ⟨hfits.1, hfits.2, rfl⟩⟩
    rw [Turtle.State.step_of_expecting (by simp [hterm])]
    simp [Turtle.State.advance, hterm, Turtle.State.predicateOr, Turtle.State.predicate?,
      iri?_of_isAbsolute t.graph habsolute]

theorem step_object (h : Matches base s t) {subject predicate : Term}
    (he : s.expecting = .object subject predicate) (hs : s.step l = .ok s1) :
    ∃ t1, t.step l = .ok t1 ∧ Matches base s1 t1 := by
  have hearly : s.early = s.graph := State.early_eq (by simp [he])
  have hterm : t.expecting = .term (.object subject predicate) := by rw [h.expecting, he]; rfl
  have hfits := h.fits
  rw [he] at hfits
  obtain ⟨hsubject, hknown, hpredicate⟩ := hfits
  cases l with
  | blank label =>
    simp only [State.step, he] at hs
    split at hs
    · simp at hs
    · next node s2 hblank =>
      obtain rfl := Except.ok.inj hs
      obtain ⟨t1, hnode, hexpecting, hwaiting, hgraph, hlabels, hscope⟩ := h.blank hearly hblank
      obtain ⟨-, rfl, rfl⟩ := eq_of_blank hblank
      -- the blank node matches before it is handed over
      have hmatches : Matches base { s with graph := s.graph.see label } t1 := by
        refine ⟨?_, hscope, hlabels, hwaiting, hexpecting.trans h.expecting, ?_⟩
        · simpa only [State.early, he] using hgraph
        · rw [he]
          exact ⟨hsubject, hknown.see label, hpredicate⟩
      obtain ⟨hdeliver, hobject⟩ := hmatches.object (State.early_eq (by simp [he]))
        ⟨⟨hsubject, hpredicate, rfl⟩, hknown.see label, Graph.knows_see s.graph label⟩
      refine ⟨_, ?_, hobject⟩
      rw [Turtle.State.step_term hterm rfl]
      simp [Turtle.State.beginTerm, Turtle.State.iri?, hnode, hdeliver]
  | string delimiter value =>
    simp only [State.step, he] at hs
    split at hs
    · obtain rfl := Except.ok.inj hs
      exact ⟨_, Turtle.State.step_string hterm (by simp) delimiter value,
        h.expect hearly.symm ⟨hsubject, hknown, hpredicate⟩⟩
    · simp [Refusal.refuse] at hs
  | _ =>
    simp only [State.step, he] at hs
    split at hs
    · simp at hs
    · next name hiri =>
      obtain ⟨hl, habsolute⟩ := eq_of_iri hiri
      obtain rfl := Except.ok.inj hs
      obtain ⟨hdeliver, hobject⟩ := h.object hearly
        (⟨⟨hsubject, hpredicate, rfl⟩, hknown, by simp [Graph.Knows]⟩ :
          (Expecting.dot subject predicate (.iri name)).Fits s.graph)
      refine ⟨_, ?_, hobject⟩
      rw [hl, Turtle.State.step_term hterm rfl]
      simp [Turtle.State.beginTerm, iri?_of_isAbsolute t.graph habsolute, hdeliver]

/-- A literal is handed over before the dot of its line. -/
theorem literal (h : Matches base s t) (hearly : s.early = s.graph) {subject predicate : Term}
    (hsubject : subject.isResource = true) (hknown : s.graph.Knows subject)
    (hpredicate : predicate.isIri = true) {value : String} {language : Option String}
    {datatype : Option Iri} (hs : s.literal subject predicate value language datatype = .ok s1) :
    ∃ t1, t.deliverLiteral value language datatype (.object subject predicate) = .ok t1 ∧
      Matches base s1 t1 := by
  simp only [State.literal] at hs
  split at hs
  · simp at hs
  · next content hmake =>
    obtain rfl := Except.ok.inj hs
    obtain ⟨hdeliver, hobject⟩ := h.object hearly
      (⟨⟨hsubject, hpredicate, rfl⟩, hknown, by simp [Graph.Knows]⟩ :
        (Expecting.dot subject predicate (.literal content)).Fits s.graph)
    exact ⟨_, by simp only [Turtle.State.deliverLiteral, hmake, hdeliver], hobject⟩

theorem step_datatype (h : Matches base s t) {subject predicate : Term} {value : String}
    (he : s.expecting = .datatype subject predicate value) (hs : s.step l = .ok s1) :
    ∃ t1, t.step l = .ok t1 ∧ Matches base s1 t1 := by
  have hearly : s.early = s.graph := State.early_eq (by simp [he])
  have hterm : t.expecting = .datatype value (.object subject predicate) := by
    rw [h.expecting, he]; rfl
  have hfits := h.fits
  rw [he] at hfits
  obtain ⟨hsubject, hknown, hpredicate⟩ := hfits
  simp only [State.step, he] at hs
  split at hs
  · simp at hs
  · next name hiri =>
    obtain ⟨rfl, habsolute⟩ := eq_of_iri hiri
    obtain ⟨t1, hdeliver, hmatches⟩ := h.literal hearly hsubject hknown hpredicate hs
    refine ⟨t1, ?_, hmatches⟩
    rw [Turtle.State.step_of_expecting (by simp [hterm])]
    simp only [Turtle.State.advance, hterm, iri?_of_isAbsolute t.graph habsolute, hdeliver]

/-- The dot ends a line. -/
theorem step_dot (h : Matches base s t) {subject predicate object : Term}
    (he : s.expecting = .dot subject predicate object) (hs : s.step l = .ok s1) :
    ∃ t1, t.step l = .ok t1 ∧ Matches base s1 t1 := by
  have hmore : t.expecting = .more subject predicate := by rw [h.expecting, he]; rfl
  have hfits := h.fits
  rw [he] at hfits
  obtain ⟨hform, hsubject, hobject⟩ := hfits
  simp only [State.step, he, State.endLine] at hs
  split at hs
  · next hl =>
    rw [hl]
    have hmake : Triple.make subject predicate object = .ok ⟨subject, predicate, object⟩ :=
      Triple.make_eq_ok_iff.2 ⟨rfl, hform⟩
    simp only [hmake, Refusal.checked] at hs
    obtain rfl := Except.ok.inj hs
    have hseen := @Graph.seen_add_of_knows s.graph ⟨subject, predicate, object⟩ hsubject hobject
    refine ⟨t.expect (.term .subject),
      Turtle.State.step_dot (.inl (.inl ⟨predicate, hmore⟩)) h.waiting, ?_, ?_, ?_, h.waiting, rfl,
      trivial⟩
    · have hgraph := h.graph
      simp only [State.early, he] at hgraph
      exact hgraph
    · obtain ⟨hbase, hspaces⟩ := Turtle.scope_add s.graph ⟨subject, predicate, object⟩
      exact ⟨hbase.trans h.scope.1, hspaces.trans h.scope.2⟩
    · intro label
      simp only [State.expect, hseen]
      exact h.labels label
  · simp [Refusal.refuse] at hs

theorem step_suffix (h : Matches base s t) {subject predicate : Term} {value : String}
    (he : s.expecting = .suffix subject predicate value) (hs : s.step l = .ok s1) :
    ∃ t1, t.step l = .ok t1 ∧ Matches base s1 t1 := by
  have hearly : s.early = s.graph := State.early_eq (by simp [he])
  have hterm : t.expecting = .suffix value (.object subject predicate) := by
    rw [h.expecting, he]; rfl
  have hfits := h.fits
  rw [he] at hfits
  obtain ⟨hsubject, hknown, hpredicate⟩ := hfits
  cases l with
  | languageTag tag =>
    simp only [State.step, he] at hs
    obtain ⟨t1, hdeliver, hmatches⟩ := h.literal hearly hsubject hknown hpredicate hs
    exact ⟨t1, by simp only [Turtle.State.step, hterm, hdeliver], hmatches⟩
  | datatypeMark =>
    simp only [State.step, he] at hs
    obtain rfl := Except.ok.inj hs
    exact ⟨_, by simp only [Turtle.State.step, hterm]; rfl,
      h.expect hearly.symm ⟨hsubject, hknown, hpredicate⟩⟩
  | _ =>
    -- the literal ends, and the lexeme is read behind it
    simp only [State.step, he] at hs
    have hliteral : s.literal subject predicate value none none =
      .ok (s.expect (.dot subject predicate (.literal ⟨value, none, none⟩))) := rfl
    obtain ⟨t1, hdeliver, hmatches⟩ := h.literal hearly hsubject hknown hpredicate hliteral
    obtain ⟨t2, hstep, hnext⟩ := hmatches.step_dot rfl hs
    have hmore := hmatches.expecting
    simp only [State.expect, Expecting.inTurtle] at hmore
    rw [Turtle.State.step_of_expecting (by simp [hmore])] at hstep
    exact ⟨t2, by simp only [Turtle.State.step, hterm, hdeliver, hstep], hnext⟩

theorem step (h : Matches base s t) (hs : s.step l = .ok s1) :
    ∃ t1, t.step l = .ok t1 ∧ Matches base s1 t1 := by
  cases he : s.expecting with
  | subject => exact h.step_subject he hs
  | predicate _ => exact h.step_predicate he hs
  | object _ _ => exact h.step_object he hs
  | suffix _ _ _ => exact h.step_suffix he hs
  | datatype _ _ _ => exact h.step_datatype he hs
  | dot _ _ _ => exact h.step_dot he hs
  | nothing =>
    simp only [State.step, he] at hs
    obtain rfl := Except.ok.inj hs
    have hend : t.expecting = .nothing := by rw [h.expecting, he]; rfl
    exact ⟨t, by simp only [Turtle.State.step, Turtle.State.advance, hend], h⟩

end Matches

/-! ### Documents -/

/-- The reader of Turtle reads the graph of an N-Triples document, but for the base that it was
given. -/
theorem read_inTurtle {text : String} {source : SourceName} {g : Graph}
    (h : read text source = .ok g) (source' : SourceName) (base : Option Iri) :
    Turtle.read text source' base = .ok (g.withBase base) ∧ g.base = none ∧ g.namespaces = [] := by
  have hstart : Matches base {} { graph := { base } } :=
    ⟨rfl, ⟨rfl, rfl⟩, fun _ => rfl, rfl, rfl, trivial⟩
  obtain ⟨s, hrun, hresult⟩ := machine.read_eq_ok_iff.1 h
  obtain ⟨t, hfollows, hmatches⟩ :=
    machine.runLexemes_follows Turtle.machine (Matches base) Matches.step hstart hrun
  have hend : s.expecting = .nothing ∧ s.graph = g := by
    simpa [machine, State.graph?] using hresult
  obtain ⟨hnothing, rfl⟩ := hend
  have hearly : s.early = s.graph := State.early_eq (by simp [hnothing])
  have hgraph : t.graph = s.graph.withBase base := hearly ▸ hmatches.graph
  have hexpecting : t.expecting = .nothing := by rw [hmatches.expecting, hnothing]; rfl
  refine ⟨Turtle.machine.read_eq_ok_iff.2 ⟨t, hfollows, ?_⟩, hmatches.scope⟩
  simp [Turtle.machine, Turtle.State.graph?, hexpecting, hgraph]

/-- An N-Triples document is a Turtle document with the same triples, in the same order and between
the same nodes. It binds no label, and the next node that is minted is the same. -/
theorem read_subset {text : String} {source : SourceName} {g : Graph}
    (h : read text source = .ok g) (source' : SourceName) (base : Option Iri) :
    ∃ result, Turtle.read text source' base = .ok result ∧ result.triples = g.triples ∧
      result.namespaces = [] ∧ result.mint.1 = g.mint.1 := by
  obtain ⟨hread, -, hspaces⟩ := read_inTurtle h source' base
  exact ⟨g.withBase base, hread, rfl, hspaces, rfl⟩

/-- A label that could be minted comes first, and the next node takes the number behind it. -/
theorem read_subset_minted :
    let text := "_:auto0 <urn:p> \"x\"@en . # a remark\n<urn:s> <urn:p> _:auto0 ."
    ∃ result, Turtle.read text (.text "lines") (some ⟨"urn:b"⟩) = .ok result ∧
      result.triples = [⟨.blank "auto0", .iri ⟨"urn:p"⟩, .literal ⟨"x", some "en", none⟩⟩,
        ⟨.iri ⟨"urn:s"⟩, .iri ⟨"urn:p"⟩, .blank "auto0"⟩] ∧
      result.namespaces = [] ∧ result.mint.1 = "auto1" := by
  intro text
  have hread : (read text (.text "lines")).toOption.map (fun g => (g.triples, g.mint.1)) =
      some ([⟨.blank "auto0", .iri ⟨"urn:p"⟩, .literal ⟨"x", some "en", none⟩⟩,
        ⟨.iri ⟨"urn:s"⟩, .iri ⟨"urn:p"⟩, .blank "auto0"⟩], "auto1") := by decide +kernel
  cases hg : read text (.text "lines") with
  | error failure => simp [hg, Except.toOption] at hread
  | ok g =>
    obtain ⟨htriples, hmint⟩ : g.triples = _ ∧ g.mint.1 = "auto1" := by
      simpa [hg, Except.toOption] using hread
    obtain ⟨result, hresult, hsame, hspaces, hnext⟩ :=
      read_subset hg (.text "lines") (some ⟨"urn:b"⟩)
    exact ⟨result, hresult, hsame.trans htriples, hspaces, hnext.trans hmint⟩

end NTriples

end Rdf

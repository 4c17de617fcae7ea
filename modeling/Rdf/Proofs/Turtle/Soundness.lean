import Rdf.Proofs.Token.Forms
import Rdf.Proofs.Turtle.Statements

/-!
What the reader of Turtle holds is sound.

All terms in a state can be written and have absolute identifiers, so that the checked constructors
refuse none of them. A step keeps that up, or refuses its lexeme for what the lexeme is.
-/

namespace Rdf

/-- The graph can be written. Its base is the given one or absolute. -/
structure Graph.Sound (base : Option Iri) (g : Graph) : Prop where
  triples : ∀ t ∈ g.triples, t.Sound
  spaces : ∀ space ∈ g.namespaces, isSpaceLabel space.1.toList = true ∧ space.2.isAbsolute = true
  base : g.base = base ∨ ∃ iri, g.base = some iri ∧ iri.isAbsolute = true

/-- The fault is about the name that a lexeme is. -/
def ResolutionFault.Concerns : ResolutionFault → Lexeme → Prop
  | .noBase value, l => l = .iri value ∧ hasScheme value.toList = false
  | .relativeBase _, l => ∃ value, l = .iri value ∧ hasScheme value.toList = false
  | .undefinedLabel label, l => ∃ localPart, l = .name label localPart
  | .unresolvable _ _ _, _ => False

/-- The refusal lies in the lexeme: its grammar is wrong there, or it names nothing. -/
def Refusal.LiesIn (l : Lexeme) : Refusal → Prop
  | .grammar _ => True
  | .resolution fault => fault.Concerns l
  | .invalid _ => False

/-- The term is sound and may be a subject. -/
structure Term.SoundNode (t : Term) : Prop where
  resource : t.isResource = true
  sound : t.Sound

namespace Turtle

open Refusal

variable {base : Option Iri} {g : Graph} {s s1 : State} {target : Target} {l : Lexeme}
  {subject predicate term : Term}

/-! ### Sound states -/

def Target.Sound : Target → Prop
  | .subject => True
  | .object s p => s.SoundNode ∧ p.isIri = true ∧ p.Sound
  | .item items => ∀ t ∈ items, t.Sound

def Expecting.Sound : Expecting → Prop
  | .term target => target.Sound
  | .space _ name => isSpaceLabel name.toList = true
  | .predicate s | .firstPredicate s | .anyPredicate s | .nextPredicate s => s.SoundNode
  | .more s p => s.SoundNode ∧ p.isIri = true ∧ p.Sound
  | .suffix _ target | .datatype _ target => target ≠ .subject ∧ target.Sound
  | .label _ | .base _ | .directiveEnd _ | .nothing => True

/-- What is sound about a state whatever it expects. -/
structure State.Holds (base : Option Iri) (s : State) : Prop where
  graph : s.graph.Sound base
  labels : ∀ entry ∈ s.labels, entry.2.SoundNode
  waiting : ∀ target ∈ s.waiting, target.Sound

structure State.Sound (base : Option Iri) (s : State) : Prop where
  holds : s.Holds base
  expecting : s.expecting.Sound

theorem State.Holds.expect (h : s.Holds base) {next : Expecting} (hnext : next.Sound) :
    (s.expect next).Sound base := ⟨⟨h.graph, h.labels, h.waiting⟩, hnext⟩

theorem State.Holds.withGraph (h : s.Holds base) (hg : g.Sound base) :
    State.Holds base { s with graph := g } := ⟨hg, h.labels, h.waiting⟩

/-! ### Graphs and names -/

theorem sound_add (h : g.Sound base) {t : Triple} (ht : t.Sound) : (g.add t).Sound base := by
  obtain ⟨hbase, hspaces⟩ := scope_add g t
  refine ⟨fun u hu => ?_, hspaces ▸ h.spaces, hbase ▸ h.base⟩
  cases (Graph.mem_add ht.valid.wellFormed).1 hu with
  | inl hu => exact h.triples u hu
  | inr hu => exact hu ▸ ht

theorem sound_addAll (h : g.Sound base) {ts : List Triple} (hts : ∀ t ∈ ts, t.Sound) :
    (g.addAll ts).Sound base := by
  induction ts generalizing g with
  | nil => exact h
  | cons t ts ih =>
    obtain ⟨ht, hrest⟩ := List.forall_mem_cons.1 hts
    exact ih (sound_add h ht) hrest

theorem sound_mint (h : g.Sound base) : g.mint.2.Sound base := ⟨h.triples, h.spaces, h.base⟩

theorem mint_sound (g : Graph) : (Term.blank g.mint.1).Sound :=
  .blank (Graph.isBlankLabel_mintedLabel _)

theorem sound_mintMany (h : g.Sound base) (count : Nat) :
    (g.mintMany count).2.Sound base ∧
      ∀ label ∈ (g.mintMany count).1, (Term.blank label).Sound := by
  induction count generalizing g with
  | zero => exact ⟨h, by simp [Graph.mintMany]⟩
  | succ count ih =>
    obtain ⟨hgraph, hlabels⟩ := ih (sound_mint h)
    exact ⟨hgraph, List.forall_mem_cons.2 ⟨mint_sound g, hlabels⟩⟩

theorem sound_bind (h : g.Sound base) {label : String} (hlabel : isSpaceLabel label.toList = true)
    {iri : Iri} (hiri : iri.isAbsolute = true) : (g.bind label iri).Sound base := by
  refine ⟨h.triples, fun space hspace => ?_, h.base⟩
  cases mem_bindIn hspace with
  | inl he => exact he ▸ ⟨hlabel, hiri⟩
  | inr hold => exact h.spaces space hold

theorem sound_setBase (h : g.Sound base) {iri : Iri} (hiri : iri.isAbsolute = true) :
    (g.setBase (some iri)).Sound base := ⟨h.triples, h.spaces, .inr ⟨iri, rfl, hiri⟩⟩

theorem resolve_answers (inForce : Option Iri) (value : String) :
    Answers (·.isAbsolute = true) (LiesIn (.iri value)) (State.resolve inForce value) := by
  by_cases hscheme : hasScheme value.toList = true
  · have habsolute : Iri.isAbsolute ⟨value⟩ = true := hscheme
    have htext := Iri.ofText_value (.of_isAbsolute habsolute)
    simp only at htext
    simp only [State.resolve, if_pos hscheme, htext]
    exact habsolute
  · have hrelative : hasScheme value.toList = false := by simpa using hscheme
    simp only [State.resolve, if_neg hscheme]
    cases inForce with
    | none => exact ⟨rfl, hrelative⟩
    | some inForce =>
      by_cases habsolute : inForce.isAbsolute = true
      · have htarget := hasScheme_resolveText habsolute value.toList
        let iri : Iri := ⟨String.ofList (resolveText inForce.value.toList value.toList)⟩
        have hiri : iri.isAbsolute = true := by simpa [iri, Iri.isAbsolute] using htarget
        have htext := Iri.ofText_value (.of_isAbsolute hiri)
        simp only [iri] at htext
        simp only [habsolute, if_true, htext]
        exact hiri
      · simp only [habsolute]
        exact ⟨value, rfl, hrelative⟩

theorem expand_answers (h : g.Sound base) (label localPart : String) :
    Answers (·.isAbsolute = true) (LiesIn (.name label localPart))
      (State.expand g label localPart) := by
  simp only [State.expand, Graph.namespace?]
  cases hlookup : g.namespaces.lookup label with
  | none => exact ⟨localPart, rfl⟩
  | some space =>
    obtain ⟨before, behind, hspaces, -⟩ := List.lookup_eq_some_iff.1 hlookup
    have hspace : space.isAbsolute = true := (h.spaces (label, space) (by simp [hspaces])).2
    have hiri : Iri.isAbsolute ⟨space.value ++ localPart⟩ = true := by
      simpa [Iri.isAbsolute] using hasScheme_append hspace localPart.toList
    have htext := Iri.ofText_value (.of_isAbsolute hiri)
    simp only at htext
    simp only [htext]
    exact hiri

/-- What a name stands for is absolute, or the name is at fault. -/
theorem iri?_answers (h : g.Sound base) {result : Except Refusal Iri}
    (hiri : State.iri? g l = some result) : Answers (·.isAbsolute = true) (LiesIn l) result := by
  cases l with
  | iri value => exact Option.some.inj hiri ▸ resolve_answers g.base value
  | name label localPart => exact Option.some.inj hiri ▸ expand_answers h label localPart
  | _ => simp [State.iri?] at hiri

theorem predicate?_answers (h : g.Sound base) {result : Except Refusal Iri}
    (hiri : State.predicate? g l = some result) :
    Answers (·.isAbsolute = true) (LiesIn l) result := by
  by_cases ha : l = .a
  · subst ha
    obtain rfl := Option.some.inj hiri
    exact (by decide : Vocabulary.type.isAbsolute = true)
  · have hname : State.iri? g l = some result := by
      cases l <;> first | exact hiri | exact (ha rfl).elim
    exact iri?_answers h hname

/-! ### Terms -/

/-- Triples of sound terms are never refused. -/
theorem addTriple_holds (h : s.Holds base) (ht : (Target.object subject predicate).Sound)
    (hterm : term.Sound) : ∃ s1, s.addTriple subject predicate term = .ok s1 ∧ s1.Holds base := by
  obtain ⟨⟨hresource, hsubject⟩, hiri, hpredicate⟩ := ht
  refine ⟨_, State.addTriple_eq_ok hresource hiri hterm.valid.isTerm, h.withGraph ?_⟩
  exact sound_add h.graph (.of_terms hresource hiri hsubject hpredicate hterm)

/-- Sound terms are taken by every target that waits for them. -/
theorem deliver_sound (h : s.Holds base) (ht : target.Sound) (hterm : term.Sound)
    (hresource : target = .subject → term.isResource = true) (mayEnd : Bool) :
    ∃ s1, s.deliver term mayEnd target = .ok s1 ∧ s1.Sound base := by
  cases target with
  | subject =>
    have hsubject : term.SoundNode := ⟨hresource rfl, hterm⟩
    refine ⟨_, rfl, h.expect ?_⟩
    cases mayEnd <;> exact hsubject
  | object subject predicate =>
    obtain ⟨s1, hadd, hholds⟩ := addTriple_holds h ht hterm
    have hmore : Expecting.Sound (.more subject predicate) := ht
    exact ⟨_, by simp only [State.deliver, hadd], hholds.expect hmore⟩
  | item items =>
    have hitems : Target.Sound (.item (term :: items)) := List.forall_mem_cons.2 ⟨hterm, ht⟩
    exact ⟨_, rfl, h.expect hitems⟩

theorem deliverLiteral_sound (h : s.Holds base) (ht : target ≠ .subject ∧ target.Sound)
    {value : String} {language : Option String} {datatype : Option Iri}
    (hsingle : language = none ∨ datatype = none)
    (htag : ∀ tag ∈ language, isLanguageTag tag.toList = true)
    (hdatatype : ∀ iri ∈ datatype, iri.isAbsolute = true) :
    ∃ s1, s.deliverLiteral value language datatype target = .ok s1 ∧ s1.Sound base := by
  have hne : language ≠ some "" := by
    rintro rfl
    exact absurd (htag "" rfl) (by decide)
  have hvalid : Literal.Valid ⟨value, language, datatype⟩ :=
    ⟨hne, hsingle, fun iri hiri => .of_isAbsolute (hdatatype iri hiri)⟩
  have hliteral : (Term.literal ⟨value, language, datatype⟩).Sound := ⟨hvalid, htag, hdatatype⟩
  rw [State.deliverLiteral_eq hne hsingle]
  exact deliver_sound h ht.2 hliteral (fun he => (ht.1 he).elim) false

/-- Labels that can be written have nodes. -/
theorem nodeOfLabel_holds (h : s.Holds base) {label : String}
    (hlabel : isBlankLabel label.toList = true) :
    ∃ node s1, s.nodeOfLabel label = .ok (node, s1) ∧ node.SoundNode ∧ s1.Holds base := by
  cases hlookup : s.labels.lookup label with
  | some node =>
    obtain ⟨before, behind, hlabels, -⟩ := List.lookup_eq_some_iff.1 hlookup
    exact ⟨node, s, by simp only [State.nodeOfLabel, hlookup],
      h.labels (label, node) (by simp [hlabels]), h⟩
  | none =>
    have hgive : ∀ {node : Term} {g : Graph}, node.SoundNode → g.Sound base →
        State.Holds base { s with graph := g, labels := (label, node) :: s.labels } :=
      fun hnode hg => ⟨hg, List.forall_mem_cons.2 ⟨hnode, h.labels⟩, h.waiting⟩
    by_cases hseen : s.graph.hasSeen label = true
    · have hnode : (Term.blank s.graph.mint.1).SoundNode := ⟨rfl, mint_sound s.graph⟩
      exact ⟨_, _, by simp only [State.nodeOfLabel, hlookup, hseen, if_true], hnode,
        hgive hnode (sound_mint h.graph)⟩
    · have hne : label ≠ "" := (Term.Sound.blank hlabel).valid
      have hnode : (Term.blank label).SoundNode := ⟨rfl, .blank hlabel⟩
      have hscope := scope_foldl_see s.graph [label]
      have hsee : (s.graph.see label).Sound base := ⟨by
        rw [Graph.see_triples]
        exact h.graph.triples, hscope.2 ▸ h.graph.spaces, hscope.1 ▸ h.graph.base⟩
      refine ⟨.blank label, _, ?_, hnode, hgive hnode hsee⟩
      simp [State.nodeOfLabel, hlookup, hseen, Graph.reserve, Term.ofBlankId, hne, bind,
        Except.bind, pure, Except.pure, checked, Term.blankId?]

theorem nest_answers (h : s.Holds base) (ht : target.Sound) :
    Answers (State.Holds base) (LiesIn l) (s.nest target) := by
  simp only [State.nest]
  split
  · trivial
  · exact ⟨h.graph, h.labels, List.forall_mem_cons.2 ⟨ht, h.waiting⟩⟩

theorem datatypeOf_isAbsolute (kind : NumberKind) : (State.datatypeOf kind).isAbsolute = true := by
  cases kind <;> decide

theorem beginTerm_answers (h : s.Holds base) (ht : target.Sound) (hl : l.Legible) :
    Answers (State.Sound base) (LiesIn l) (s.beginTerm target l) := by
  cases hiri : State.iri? s.graph l with
  | some result =>
    have hanswers := iri?_answers h.graph hiri
    simp only [State.beginTerm, hiri]
    cases result with
    | error refusal => exact hanswers
    | ok iri => exact .of_ok (deliver_sound h ht (.iri hanswers) (fun _ => rfl) false)
  | none =>
    have hshort : ∀ {value : String} {datatype : Iri}, datatype.isAbsolute = true →
        target ≠ .subject →
        Answers (State.Sound base) (LiesIn l)
          (s.deliverLiteral value none (some datatype) target) := by
      intro value datatype hdatatype htarget
      refine .of_ok (deliverLiteral_sound h ⟨htarget, ht⟩ (.inl rfl) (by simp) fun iri he => ?_)
      obtain rfl := Option.some.inj he
      exact hdatatype
    cases l with
    | blank label =>
      obtain ⟨node, s1, hnode, ⟨hresource, hsound⟩, hholds⟩ := nodeOfLabel_holds h hl
      simp only [State.beginTerm, hiri, hnode]
      exact .of_ok (deliver_sound hholds ht hsound (fun _ => hresource) false)
    | string delimiter value =>
      simp only [State.beginTerm, hiri]
      split
      · trivial
      · next htarget => exact h.expect ⟨htarget, ht⟩
    | number kind text =>
      simp only [State.beginTerm, hiri]
      split
      · trivial
      · next htarget => exact hshort (datatypeOf_isAbsolute kind) htarget
    | boolean text =>
      simp only [State.beginTerm, hiri]
      split
      · trivial
      · next htarget => exact hshort (by decide) htarget
    | punct mark =>
      have hnest := @nest_answers base s target (.punct mark) h ht
      cases mark with
      | openBracket =>
        simp only [State.beginTerm, hiri]
        cases hs : s.nest target with
        | error refusal => rwa [hs] at hnest
        | ok s1 =>
          rw [hs] at hnest
          exact (hnest.withGraph (sound_mint hnest.graph)).expect ⟨rfl, mint_sound s1.graph⟩
      | openParen =>
        simp only [State.beginTerm, hiri]
        cases hs : s.nest target with
        | error refusal => rwa [hs] at hnest
        | ok s1 =>
          rw [hs] at hnest
          exact hnest.expect (fun t ht => absurd ht List.not_mem_nil)
      | _ => simp only [State.beginTerm, hiri]; trivial
    | _ => simp only [State.beginTerm, hiri]; trivial

/-! ### Brackets and collections -/

theorem State.Holds.pop (h : s.Holds base) {waiting : List Target}
    (hw : s.waiting = target :: waiting) :
    target.Sound ∧ State.Holds base { s with waiting := waiting } := by
  have hwaiting := h.waiting
  rw [hw] at hwaiting
  obtain ⟨htarget, hrest⟩ := List.forall_mem_cons.1 hwaiting
  exact ⟨htarget, h.graph, h.labels, hrest⟩

theorem closeBracket_answers (h : s.Holds base) (hnode : term.SoundNode) (hadContent : Bool) :
    Answers (State.Sound base) (LiesIn l) (s.closeBracket term hadContent) := by
  cases hw : s.waiting with
  | nil => simp only [State.closeBracket, hw]; trivial
  | cons target waiting =>
    obtain ⟨htarget, hholds⟩ := h.pop hw
    simp only [State.closeBracket, hw]
    exact .of_ok (deliver_sound hholds htarget hnode.sound (fun _ => hnode.resource) hadContent)

theorem chainTriples_sound {links : List (Term × Term)}
    (h : ∀ link ∈ links, link.1.SoundNode ∧ link.2.Sound) :
    ∀ t ∈ chainTriples links, t.Sound := by
  have hlink : ∀ {cell next : Term} {iri : Iri}, cell.SoundNode → iri.isAbsolute = true →
      next.Sound → Triple.Sound ⟨cell, .iri iri, next⟩ :=
    fun hcell hiri hnext => .of_terms hcell.resource rfl hcell.sound (.iri hiri) hnext
  refine forall_mem_chainTriples Term.SoundNode Term.Sound
    (fun hcell hitem => hlink hcell (by decide) hitem) ?_ h
  rintro cell next hcell (hnext | rfl)
  · exact hlink hcell (by decide) hnext.sound
  · exact hlink hcell (by decide) (.iri (by decide))

theorem chain_holds (h : s.Holds base) {links : List (Term × Term)}
    (hlinks : ∀ link ∈ links, link.1.SoundNode ∧ link.2.Sound) :
    ∃ s1, s.chain links = .ok s1 ∧ s1.Holds base :=
  ⟨_, State.chain_eq_ok fun link hlink =>
    ⟨(hlinks link hlink).1.resource, (hlinks link hlink).2.valid.isTerm⟩,
    h.withGraph (sound_addAll h.graph (chainTriples_sound hlinks))⟩

theorem closeCollection_answers (h : s.Holds base) {items : List Term}
    (hitems : ∀ t ∈ items, t.Sound) :
    Answers (State.Sound base) (LiesIn l) (s.closeCollection items) := by
  cases hw : s.waiting with
  | nil => simp only [State.closeCollection, hw]; trivial
  | cons target waiting =>
    obtain ⟨htarget, hholds⟩ := h.pop hw
    obtain ⟨hgraph, hlabels⟩ := sound_mintMany h.graph items.length
    let cells := (s.graph.mintMany items.length).1.map Term.blank
    have hcells : ∀ cell ∈ cells, cell.SoundNode := by
      intro cell hcell
      obtain ⟨label, hlabel, rfl⟩ := List.mem_map.1 hcell
      exact ⟨rfl, hlabels label hlabel⟩
    have hlinks : ∀ link ∈ cells.zip items.reverse, link.1.SoundNode ∧ link.2.Sound := by
      intro link hlink
      obtain ⟨hcell, hitem⟩ := List.of_mem_zip hlink
      exact ⟨hcells _ hcell, hitems _ (List.mem_reverse.1 hitem)⟩
    obtain ⟨s1, hchain, h1⟩ := chain_holds (hholds.withGraph hgraph) hlinks
    have hhead : (cells.headD (.iri Vocabulary.nil)).SoundNode := by
      cases hc : cells with
      | nil => exact ⟨rfl, .iri (by decide)⟩
      | cons cell _ => exact hcells cell (hc ▸ List.mem_cons_self)
    simp only [State.closeCollection, hw]
    rw [hchain]
    exact .of_ok (deliver_sound h1 htarget hhead.sound (fun _ => hhead.resource) false)

/-! ### Statements -/

theorem predicateOr_answers (h : s.Holds base) (hsubject : subject.SoundNode)
    {otherwise : Except Refusal State}
    (hotherwise : Answers (State.Sound base) (LiesIn l) otherwise) :
    Answers (State.Sound base) (LiesIn l) (s.predicateOr subject l otherwise) := by
  cases hiri : State.predicate? s.graph l with
  | none => simpa only [State.predicateOr, hiri] using hotherwise
  | some result =>
    have hanswers := predicate?_answers h.graph hiri
    simp only [State.predicateOr, hiri]
    cases result with
    | error refusal => exact hanswers
    | ok iri => exact h.expect ⟨hsubject, rfl, .iri hanswers⟩

theorem endSubject_answers (h : s.Holds base) (hsubject : subject.SoundNode) :
    Answers (State.Sound base) (LiesIn l) (s.endSubject subject l) := by
  cases hw : s.waiting with
  | nil =>
    simp only [State.endSubject, hw]
    split
    · exact h.expect trivial
    · trivial
  | cons target waiting =>
    simp only [State.endSubject, hw]
    split
    · exact closeBracket_answers h hsubject true
    · trivial

theorem endDirective_sound (h : s.Holds base) (word : Directive) :
    (s.endDirective word).Sound base := by
  by_cases hd : word.isDotted = true
  · simp only [State.endDirective, hd, if_true]
    exact h.expect trivial
  · simp only [State.endDirective, hd]
    exact h.expect trivial

/-! ### Steps

One lemma for each thing a state expects. -/

theorem term_answers (h : s.Holds base) (he : s.expecting = .term target) (ht : target.Sound)
    (hl : l.Legible) : Answers (State.Sound base) (LiesIn l) (s.advance l) := by
  have hbegin := beginTerm_answers h ht hl
  cases target with
  | subject =>
    cases l with
    | eof =>
      simp only [State.advance, he]
      exact h.expect trivial
    | directive word =>
      simp only [State.advance, he, State.openDirective]
      cases word.declares <;> exact h.expect trivial
    | _ => simpa only [State.advance, he] using hbegin
  | object subject predicate => cases l <;> simpa only [State.advance, he] using hbegin
  | item items =>
    cases l with
    | eof =>
      simp only [State.advance, he]
      trivial
    | punct mark =>
      cases mark with
      | closeParen =>
        simp only [State.advance, he]
        exact closeCollection_answers h ht
      | _ => simpa only [State.advance, he] using hbegin
    | _ => simpa only [State.advance, he] using hbegin

theorem label_answers (h : s.Holds base) {word : Directive} (he : s.expecting = .label word)
    (hl : l.Legible) : Answers (State.Sound base) (LiesIn l) (s.advance l) := by
  cases l with
  | name label localPart =>
    by_cases hempty : localPart = ""
    · subst hempty
      have hspace : Expecting.Sound (.space word label) := hl
      simp only [State.advance, he]
      exact h.expect hspace
    · have hrefused : s.advance (.name label localPart) = refuse (.directiveLabel word.word) := by
        simp [State.advance, he, hempty]
      rw [hrefused]
      trivial
  | _ =>
    simp only [State.advance, he]
    trivial

theorem space_answers (h : s.Holds base) {word : Directive} {label : String}
    (he : s.expecting = .space word label) (hlabel : isSpaceLabel label.toList = true) :
    Answers (State.Sound base) (LiesIn l) (s.advance l) := by
  cases l with
  | iri value =>
    have hanswers := resolve_answers s.graph.base value
    simp only [State.advance, he]
    cases hiri : State.resolve s.graph.base value with
    | error refusal => rwa [hiri] at hanswers
    | ok iri =>
      rw [hiri] at hanswers
      exact endDirective_sound (h.withGraph (sound_bind h.graph hlabel hanswers)) word
  | _ =>
    simp only [State.advance, he]
    trivial

theorem base_answers (h : s.Holds base) {word : Directive} (he : s.expecting = .base word) :
    Answers (State.Sound base) (LiesIn l) (s.advance l) := by
  cases l with
  | iri value =>
    have hanswers := resolve_answers s.graph.base value
    simp only [State.advance, he]
    cases hiri : State.resolve s.graph.base value with
    | error refusal => rwa [hiri] at hanswers
    | ok iri =>
      rw [hiri] at hanswers
      exact endDirective_sound (h.withGraph (sound_setBase h.graph hanswers)) word
  | _ =>
    simp only [State.advance, he]
    trivial

theorem directiveEnd_answers (h : s.Holds base) {word : String}
    (he : s.expecting = .directiveEnd word) :
    Answers (State.Sound base) (LiesIn l) (s.advance l) := by
  by_cases hdot : l = .punct .dot
  · subst hdot
    simp only [State.advance, he]
    exact h.expect trivial
  · have hrefused : s.advance l = refuse (.directiveEnd word) := by
      simp only [State.advance, he]
    rw [hrefused]
    trivial

theorem firstPredicate_answers (h : s.Holds base) (he : s.expecting = .firstPredicate term)
    (hnode : term.SoundNode) : Answers (State.Sound base) (LiesIn l) (s.advance l) := by
  have hor := @predicateOr_answers base s l term h hnode (refuse .predicate) trivial
  cases l with
  | punct mark =>
    cases mark with
    | closeBracket =>
      simp only [State.advance, he]
      exact closeBracket_answers h hnode false
    | _ => simpa only [State.advance, he] using hor
  | _ => simpa only [State.advance, he] using hor

theorem more_answers (h : s.Holds base) (he : s.expecting = .more subject predicate)
    (hmore : (Target.object subject predicate).Sound) :
    Answers (State.Sound base) (LiesIn l) (s.advance l) := by
  have hend := @endSubject_answers base s l subject h hmore.1
  cases l with
  | punct mark =>
    cases mark with
    | comma =>
      simp only [State.advance, he]
      exact h.expect hmore
    | semicolon =>
      simp only [State.advance, he]
      exact h.expect hmore.1
    | _ => simpa only [State.advance, he] using hend
  | _ => simpa only [State.advance, he] using hend

theorem nextPredicate_answers (h : s.Holds base) (he : s.expecting = .nextPredicate subject)
    (hsubject : subject.SoundNode) : Answers (State.Sound base) (LiesIn l) (s.advance l) := by
  have hor := predicateOr_answers h hsubject (@endSubject_answers base s l subject h hsubject)
  cases l with
  | punct mark =>
    cases mark with
    | semicolon =>
      have hsame : s.advance (.punct .semicolon) = .ok s := by simp only [State.advance, he]
      rw [hsame]
      exact ⟨h, he ▸ hsubject⟩
    | _ => simpa only [State.advance, he] using hor
  | _ => simpa only [State.advance, he] using hor

theorem datatype_answers (h : s.Holds base) {value : String}
    (he : s.expecting = .datatype value target) (ht : target ≠ .subject ∧ target.Sound) :
    Answers (State.Sound base) (LiesIn l) (s.advance l) := by
  simp only [State.advance, he]
  cases hiri : State.iri? s.graph l with
  | none => trivial
  | some result =>
    have hanswers := iri?_answers h.graph hiri
    cases result with
    | error refusal => exact hanswers
    | ok iri =>
      refine .of_ok (deliverLiteral_sound h ht (.inl rfl) (by simp) fun other ho => ?_)
      obtain rfl := Option.some.inj ho
      exact hanswers

theorem advance_answers (h : s.Sound base) (hl : l.Legible) :
    Answers (State.Sound base) (LiesIn l) (s.advance l) := by
  obtain ⟨hholds, hexpecting⟩ := h
  cases he : s.expecting <;> rw [he] at hexpecting
  case nothing =>
    simp only [State.advance, he]
    exact ⟨hholds, he ▸ hexpecting⟩
  case term => exact term_answers hholds he hexpecting hl
  case label => exact label_answers hholds he hl
  case space => exact space_answers hholds he hexpecting
  case base => exact base_answers hholds he
  case directiveEnd => exact directiveEnd_answers hholds he
  case predicate subject =>
    simp only [State.advance, he]
    exact predicateOr_answers hholds hexpecting trivial
  case firstPredicate => exact firstPredicate_answers hholds he hexpecting
  case anyPredicate subject =>
    simp only [State.advance, he]
    exact predicateOr_answers hholds hexpecting (endSubject_answers hholds hexpecting)
  case more => exact more_answers hholds he hexpecting
  case nextPredicate => exact nextPredicate_answers hholds he hexpecting
  case datatype => exact datatype_answers hholds he hexpecting
  case suffix =>
    simp only [State.advance, he]
    trivial

/-- A step leads from a sound state to a sound state, or refuses a lexeme for what it is. -/
theorem step_answers (h : s.Sound base) (hl : l.Legible) :
    Answers (State.Sound base) (LiesIn l) (s.step l) := by
  cases he : s.expecting with
  | suffix value target =>
    have ht : target ≠ .subject ∧ target.Sound := by
      have hexpecting := h.expecting
      rwa [he] at hexpecting
    -- the string ends, and the lexeme is read behind it
    obtain ⟨s1, hs1, hsound⟩ := @deliverLiteral_sound base s target h.holds ht value none none
      (.inl rfl) (by simp) (by simp)
    have hadvance := advance_answers hsound hl
    cases l with
    | languageTag tag =>
      simp only [State.step, he]
      refine .of_ok (deliverLiteral_sound h.holds ht (.inr rfl) (fun other ho => ?_) (by simp))
      obtain rfl := Option.some.inj ho
      exact hl
    | datatypeMark =>
      simp only [State.step, he]
      exact h.holds.expect ht
    | _ => simpa only [State.step, he, hs1] using hadvance
  | _ =>
    rw [State.step_of_expecting (by simp [he])]
    exact advance_answers h hl

end Turtle

end Rdf

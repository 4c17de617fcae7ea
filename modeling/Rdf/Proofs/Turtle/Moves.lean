import Rdf.Proofs.Turtle.Effects

/-!
What a step of the reader of Turtle can do.

`Moves` lists it: a lexeme changes no more than what is expected and what names stand for, or is a
term that goes to its target, or opens or closes a bracket or a parenthesis. A string that the
lexeme is no suffix of goes to its target before.
-/

namespace Rdf

/-- The lexeme is no label, and opens and closes nothing. -/
def Lexeme.isSimple : Lexeme → Bool
  | .blank _ => false
  | .punct .openBracket | .punct .closeBracket | .punct .openParen | .punct .closeParen => false
  | _ => true

namespace Turtle

open Refusal

variable {s s1 : State} {l : Lexeme} {target : Target} {term : Term}

/-- The ids of the blank nodes that a target holds. -/
def Target.ids : Target → List String
  | .subject => []
  | .object s p => [s, p].filterMap Term.blankId?
  | .item items => items.filterMap Term.blankId?

namespace Expecting

/-- The target of the term that is expected or that is being read. -/
def target? : Expecting → Option Target
  | .term target | .suffix _ target | .datatype _ target => some target
  | _ => none

/-- The ids of the blank nodes that an expectation holds. -/
def ids : Expecting → List String
  | .term target | .suffix _ target | .datatype _ target => target.ids
  | .predicate s | .firstPredicate s | .anyPredicate s | .nextPredicate s => s.blankId?.toList
  | .more s p => [s, p].filterMap Term.blankId?
  | .label _ | .space _ _ | .base _ | .directiveEnd _ | .nothing => []

end Expecting

/-- A term is handed over to its target. -/
inductive Delivers (s : State) (term : Term) : Target → State → Prop
  | subject (mayEnd : Bool) :
    Delivers s term .subject (s.expect (if mayEnd then .anyPredicate term else .predicate term))
  | object (subject predicate : Term) :
    Delivers s term (.object subject predicate)
      ({ s with graph := s.graph.add ⟨subject, predicate, term⟩ }.expect (.more subject predicate))
  | item (items : List Term) :
    Delivers s term (.item items) (s.expect (.term (.item (term :: items))))

/-- The state in which the items of a collection have their cells. -/
def State.chained (s : State) (items : List Term) : State :=
  let cells := s.graph.mintMany items.length
  { s with
    graph := cells.2.addAll (chainTriples ((cells.1.map Term.blank).zip items.reverse)) }

/-- What reading a lexeme can lead to. -/
inductive Moves (s : State) : Lexeme → State → Prop
  /-- The document has ended. -/
  | ended {l : Lexeme} (h : s.expecting = .nothing) : Moves s l s
  /-- Something else is expected, and names may stand for something else. -/
  | turn {l : Lexeme} {g : Graph} {next : Expecting} (hl : l.isSimple = true)
    (hseen : g.seen = s.graph.seen) (hids : next.ids ⊆ s.expecting.ids)
    (htarget : ∀ items, next.target? = some (.item items) →
      s.expecting.target? = some (.item items))
    (hend : next = .nothing → l = .eof) : Moves s l { s with graph := g, expecting := next }
  /-- An identifier or a literal is complete. -/
  | deliver {l : Lexeme} {target : Target} {term : Term} {s1 : State} (hl : l.isSimple = true)
    (ht : s.expecting.target? = some target) (hterm : term.blankId? = none)
    (h : Delivers s term target s1) : Moves s l s1
  | label {label : String} {target : Target} {node : Term} {s0 s1 : State}
    (ht : s.expecting = .term target) (hnode : s.nodeOfLabel label = .ok (node, s0))
    (h : Delivers s0 node target s1) : Moves s (.blank label) s1
  | openBracket {target : Target} (ht : s.expecting = .term target)
    (hroom : s.waiting.length < maxNesting) :
    Moves s (.punct .openBracket)
      { s with
        graph := s.graph.mint.2, waiting := target :: s.waiting,
        expecting := .firstPredicate (.blank s.graph.mint.1) }
  | openParen {target : Target} (ht : s.expecting = .term target)
    (hroom : s.waiting.length < maxNesting) :
    Moves s (.punct .openParen)
      { s with waiting := target :: s.waiting, expecting := .term (.item []) }
  | closeBracket {node : Term} {target : Target} {waiting : List Target} {s1 : State}
    (hnode : node.blankId?.toList ⊆ s.expecting.ids) (hw : s.waiting = target :: waiting)
    (h : Delivers { s with waiting } node target s1) : Moves s (.punct .closeBracket) s1
  | closeParen {items : List Term} {target : Target} {waiting : List Target} {s1 : State}
    (ht : s.expecting = .term (.item items)) (hw : s.waiting = target :: waiting)
    (h : Delivers ({ s with waiting }.chained items)
      (((s.graph.mintMany items.length).1.map Term.blank).headD (.iri Vocabulary.nil)) target s1) :
    Moves s (.punct .closeParen) s1

namespace State

/-! ### Terms -/

theorem eq_of_addTriple {subject predicate object : Term}
    (h : s.addTriple subject predicate object = .ok s1) :
    s1 = { s with graph := s.graph.add ⟨subject, predicate, object⟩ } := by
  simp only [addTriple] at h
  cases hm : Triple.make subject predicate object with
  | error fault => simp [hm, checked] at h
  | ok t =>
    obtain ⟨rfl, -⟩ := Triple.make_eq_ok_iff.1 hm
    simp only [hm, checked] at h
    exact (Except.ok.inj h).symm

theorem delivers_of_deliver {mayEnd : Bool} (h : s.deliver term mayEnd target = .ok s1) :
    Delivers s term target s1 := by
  cases target with
  | subject => exact Except.ok.inj h ▸ .subject mayEnd
  | object subject predicate =>
    simp only [deliver] at h
    split at h
    · cases h
    · next s0 hadd =>
      obtain rfl := eq_of_addTriple hadd
      exact Except.ok.inj h ▸ .object subject predicate
  | item items => exact Except.ok.inj h ▸ .item items

theorem delivers_of_deliverLiteral {value : String} {language : Option String}
    {datatype : Option Iri} (h : s.deliverLiteral value language datatype target = .ok s1) :
    ∃ literal, Delivers s (.literal literal) target s1 := by
  simp only [deliverLiteral] at h
  split at h
  · cases h
  · next literal _ => exact ⟨literal, delivers_of_deliver h⟩

theorem eq_of_chain {links : List (Term × Term)} (h : s.chain links = .ok s1) :
    s1 = { s with graph := s.graph.addAll (chainTriples links) } := by
  induction links generalizing s with
  | nil => exact (Except.ok.inj h).symm
  | cons link rest ih =>
    obtain ⟨cell, item⟩ := link
    simp only [chain] at h
    split at h
    · cases h
    · next s2 hfirst =>
      split at h
      · cases h
      · next s3 hrest =>
        obtain rfl := eq_of_addTriple hfirst
        obtain rfl := eq_of_addTriple hrest
        rw [ih h]
        cases rest <;> rfl

/-! ### Steps -/

theorem Moves.expect {next : Expecting} (hl : l.isSimple = true)
    (hids : next.ids ⊆ s.expecting.ids)
    (htarget : ∀ items, next.target? = some (.item items) →
      s.expecting.target? = some (.item items))
    (hend : next = .nothing → l = .eof) : Moves s l (s.expect next) :=
  .turn hl rfl hids htarget hend

theorem isSimple_of_iri? {found : Except Refusal Iri} (h : iri? s.graph l = some found) :
    l.isSimple = true := by
  cases l <;> first | rfl | cases h

theorem isSimple_of_predicate? {found : Except Refusal Iri}
    (h : predicate? s.graph l = some found) : l.isSimple = true := by
  cases l <;> first | rfl | cases h

theorem moves_of_beginTerm (ht : s.expecting = .term target) (h : s.beginTerm target l = .ok s1) :
    Moves s l s1 := by
  have htarget : s.expecting.target? = some target := by rw [ht]; rfl
  cases hiri : iri? s.graph l with
  | some found =>
    cases found with
    | error refusal => simp [beginTerm, hiri] at h
    | ok iri =>
      simp only [beginTerm, hiri] at h
      exact .deliver (isSimple_of_iri? hiri) htarget rfl (delivers_of_deliver h)
  | none =>
    cases l with
    | blank label =>
      simp only [beginTerm, hiri] at h
      split at h
      · cases h
      · next node s0 hnode => exact .label ht hnode (delivers_of_deliver h)
    | punct mark =>
      cases mark with
      | openBracket =>
        simp only [beginTerm, hiri] at h
        split at h
        · cases h
        · next s0 hnest =>
          simp only [nest] at hnest
          split at hnest
          · cases hnest
          · next hroom =>
            obtain rfl := Except.ok.inj hnest
            exact Except.ok.inj h ▸ .openBracket ht (Nat.not_le.1 hroom)
      | openParen =>
        simp only [beginTerm, hiri] at h
        split at h
        · cases h
        · next s0 hnest =>
          simp only [nest] at hnest
          split at hnest
          · cases hnest
          · next hroom =>
            obtain rfl := Except.ok.inj hnest
            exact Except.ok.inj h ▸ .openParen ht (Nat.not_le.1 hroom)
      | _ => simp [beginTerm, hiri, refuse] at h
    | string delimiter value =>
      simp only [beginTerm, hiri] at h
      split at h
      · cases h
      · obtain rfl := Except.ok.inj h
        refine Moves.expect rfl ?_ (fun items hi => ?_) (by simp)
        · rw [ht]
          exact List.Subset.refl _
        · rwa [htarget]
    | number kind text =>
      simp only [beginTerm, hiri] at h
      split at h
      · cases h
      · obtain ⟨literal, hd⟩ := delivers_of_deliverLiteral h
        exact .deliver rfl htarget rfl hd
    | boolean text =>
      simp only [beginTerm, hiri] at h
      split at h
      · cases h
      · obtain ⟨literal, hd⟩ := delivers_of_deliverLiteral h
        exact .deliver rfl htarget rfl hd
    | _ => simp [beginTerm, hiri, refuse] at h

theorem moves_of_closeBracket {node : Term} {hadContent : Bool}
    (hnode : node.blankId?.toList ⊆ s.expecting.ids)
    (h : s.closeBracket node hadContent = .ok s1) : Moves s (.punct .closeBracket) s1 := by
  simp only [closeBracket] at h
  split at h
  · cases h
  · next target waiting hw => exact .closeBracket hnode hw (delivers_of_deliver h)

theorem moves_of_closeCollection {items : List Term} (ht : s.expecting = .term (.item items))
    (h : s.closeCollection items = .ok s1) : Moves s (.punct .closeParen) s1 := by
  simp only [closeCollection] at h
  split at h
  · cases h
  · next target waiting hw =>
    split at h
    · cases h
    · next s0 hchain =>
      obtain rfl := eq_of_chain hchain
      exact .closeParen ht hw (delivers_of_deliver h)

theorem moves_of_predicateOr {subject : Term} {otherwise : Except Refusal State}
    (hids : subject.blankId?.toList ⊆ s.expecting.ids)
    (hotherwise : otherwise = .ok s1 → Moves s l s1)
    (h : s.predicateOr subject l otherwise = .ok s1) : Moves s l s1 := by
  cases hiri : predicate? s.graph l with
  | none =>
    simp only [predicateOr, hiri] at h
    exact hotherwise h
  | some found =>
    cases found with
    | error refusal => simp [predicateOr, hiri] at h
    | ok iri =>
      simp only [predicateOr, hiri] at h
      obtain rfl := Except.ok.inj h
      refine Moves.expect (isSimple_of_predicate? hiri) ?_ (by simp [Expecting.target?]) (by simp)
      have hsame : (Expecting.term (.object subject (.iri iri))).ids = subject.blankId?.toList := by
        cases subject <;> simp [Expecting.ids, Target.ids, Term.blankId?]
      rwa [hsame]

theorem moves_of_endSubject {subject : Term} (hids : subject.blankId?.toList ⊆ s.expecting.ids)
    (h : s.endSubject subject l = .ok s1) : Moves s l s1 := by
  simp only [endSubject] at h
  split at h
  · split at h
    · next hdot =>
      obtain rfl := Except.ok.inj h
      exact Moves.expect (hdot ▸ rfl) (by simp [Expecting.ids, Target.ids])
        (by simp [Expecting.target?]) (by simp)
    · cases h
  · split at h
    · next hclose =>
      rw [hclose]
      exact moves_of_closeBracket hids h
    · cases h

theorem moves_of_endDirective {word : Directive} {g : Graph} (hl : l.isSimple = true)
    (hseen : g.seen = s.graph.seen) : Moves s l ({ s with graph := g }.endDirective word) := by
  by_cases hd : word.isDotted = true
  · simp only [endDirective, hd, if_true]
    exact .turn hl hseen (by simp [Expecting.ids]) (by simp [Expecting.target?]) (by simp)
  · simp only [endDirective, hd]
    exact .turn hl hseen (by simp [Expecting.ids, Target.ids]) (by simp [Expecting.target?])
      (by simp)

theorem moves_of_term (he : s.expecting = .term target) (h : s.advance l = .ok s1) :
    Moves s l s1 := by
  have hbegin : s.beginTerm target l = .ok s1 → Moves s l s1 := moves_of_beginTerm he
  cases target with
  | subject =>
    cases l with
    | eof =>
      simp only [advance, he] at h
      obtain rfl := Except.ok.inj h
      exact Moves.expect rfl (by simp [Expecting.ids]) (by simp [Expecting.target?]) fun _ => rfl
    | directive word =>
      simp only [advance, he, openDirective] at h
      obtain rfl := Except.ok.inj h
      cases word.declares <;>
        exact Moves.expect rfl (by simp [Expecting.ids]) (by simp [Expecting.target?]) (by simp)
    | _ =>
      simp only [advance, he] at h
      exact hbegin h
  | object subject predicate =>
    cases l <;> simp only [advance, he] at h <;> exact hbegin h
  | item items =>
    cases l with
    | eof => simp [advance, he, refuse] at h
    | punct mark =>
      cases mark with
      | closeParen =>
        simp only [advance, he] at h
        exact moves_of_closeCollection he h
      | _ =>
        simp only [advance, he] at h
        exact hbegin h
    | _ =>
      simp only [advance, he] at h
      exact hbegin h

theorem moves_of_label {word : Directive} (he : s.expecting = .label word)
    (h : s.advance l = .ok s1) : Moves s l s1 := by
  cases l with
  | name label localPart =>
    by_cases hempty : localPart = ""
    · subst hempty
      simp only [advance, he] at h
      obtain rfl := Except.ok.inj h
      exact Moves.expect rfl (by simp [Expecting.ids]) (by simp [Expecting.target?]) (by simp)
    · simp [advance, he, hempty, refuse] at h
  | _ => simp [advance, he, refuse] at h

theorem moves_of_space {word : Directive} {label : String} (he : s.expecting = .space word label)
    (h : s.advance l = .ok s1) : Moves s l s1 := by
  cases l with
  | iri value =>
    simp only [advance, he] at h
    split at h
    · cases h
    · exact Except.ok.inj h ▸ moves_of_endDirective rfl rfl
  | _ => simp [advance, he, refuse] at h

theorem moves_of_base {word : Directive} (he : s.expecting = .base word)
    (h : s.advance l = .ok s1) : Moves s l s1 := by
  cases l with
  | iri value =>
    simp only [advance, he] at h
    split at h
    · cases h
    · exact Except.ok.inj h ▸ moves_of_endDirective rfl rfl
  | _ => simp [advance, he, refuse] at h

theorem moves_of_directiveEnd {word : String} (he : s.expecting = .directiveEnd word)
    (h : s.advance l = .ok s1) : Moves s l s1 := by
  by_cases hdot : l = .punct .dot
  · subst hdot
    simp only [advance, he] at h
    obtain rfl := Except.ok.inj h
    exact Moves.expect rfl (by simp [Expecting.ids, Target.ids]) (by simp [Expecting.target?])
      (by simp)
  · simp [advance, he, refuse] at h

theorem moves_of_firstPredicate {node : Term} (he : s.expecting = .firstPredicate node)
    (h : s.advance l = .ok s1) : Moves s l s1 := by
  have hids : node.blankId?.toList ⊆ s.expecting.ids := by
    rw [he]
    exact List.Subset.refl _
  by_cases hclose : l = .punct .closeBracket
  · subst hclose
    simp only [advance, he] at h
    exact moves_of_closeBracket hids h
  · have hor : s.advance l = s.predicateOr node l (refuse .predicate) := by simp [advance, he]
    exact moves_of_predicateOr hids (fun hr => by simp [refuse] at hr) (hor ▸ h)

theorem moves_of_more {subject predicate : Term} (he : s.expecting = .more subject predicate)
    (h : s.advance l = .ok s1) : Moves s l s1 := by
  have hids : subject.blankId?.toList ⊆ s.expecting.ids := by
    rw [he]
    cases hs : subject.blankId? <;> simp [Expecting.ids, hs, List.filterMap_cons]
  by_cases hcomma : l = .punct .comma
  · subst hcomma
    simp only [advance, he] at h
    obtain rfl := Except.ok.inj h
    refine Moves.expect rfl ?_ (by simp [Expecting.target?]) (by simp)
    rw [he]
    exact List.Subset.refl _
  · by_cases hsemicolon : l = .punct .semicolon
    · subst hsemicolon
      simp only [advance, he] at h
      obtain rfl := Except.ok.inj h
      exact Moves.expect rfl hids (by simp [Expecting.target?]) (by simp)
    · have hend : s.advance l = s.endSubject subject l := by simp [advance, he]
      exact moves_of_endSubject hids (hend ▸ h)

theorem moves_of_nextPredicate {subject : Term} (he : s.expecting = .nextPredicate subject)
    (h : s.advance l = .ok s1) : Moves s l s1 := by
  have hids : subject.blankId?.toList ⊆ s.expecting.ids := by
    rw [he]
    exact List.Subset.refl _
  by_cases hsemicolon : l = .punct .semicolon
  · subst hsemicolon
    simp only [advance, he] at h
    obtain rfl := Except.ok.inj h
    have hstay : Moves s (.punct .semicolon) (s.expect s.expecting) :=
      Moves.expect rfl (List.Subset.refl _) (fun _ hi => hi) (by simp [he])
    exact hstay
  · have hor : s.advance l = s.predicateOr subject l (s.endSubject subject l) := by
      simp [advance, he]
    exact moves_of_predicateOr hids (moves_of_endSubject hids) (hor ▸ h)

theorem moves_of_datatype {value : String} (he : s.expecting = .datatype value target)
    (h : s.advance l = .ok s1) : Moves s l s1 := by
  simp only [advance, he] at h
  split at h
  · cases h
  · next iri hiri =>
    obtain ⟨literal, hd⟩ := delivers_of_deliverLiteral h
    exact .deliver (isSimple_of_iri? hiri) (by rw [he]; rfl) rfl hd
  · cases h

theorem moves_of_advance (h : s.advance l = .ok s1) : Moves s l s1 := by
  cases he : s.expecting with
  | nothing =>
    simp only [advance, he] at h
    exact Except.ok.inj h ▸ .ended he
  | term target => exact moves_of_term he h
  | label word => exact moves_of_label he h
  | space word label => exact moves_of_space he h
  | base word => exact moves_of_base he h
  | directiveEnd word => exact moves_of_directiveEnd he h
  | firstPredicate node => exact moves_of_firstPredicate he h
  | more subject predicate => exact moves_of_more he h
  | nextPredicate subject => exact moves_of_nextPredicate he h
  | datatype value target => exact moves_of_datatype he h
  | predicate subject =>
    have hids : subject.blankId?.toList ⊆ s.expecting.ids := by
      rw [he]
      exact List.Subset.refl _
    simp only [advance, he] at h
    exact moves_of_predicateOr hids (fun hr => by simp [refuse] at hr) h
  | anyPredicate subject =>
    have hids : subject.blankId?.toList ⊆ s.expecting.ids := by
      rw [he]
      exact List.Subset.refl _
    simp only [advance, he] at h
    exact moves_of_predicateOr hids (moves_of_endSubject hids) h
  | suffix value target => simp [advance, he, refuse] at h

/-- The state in which a lexeme is read: a string that it is no suffix of is complete. -/
def settled (s : State) (l : Lexeme) : State :=
  match s.expecting with
  | .suffix value target =>
    if l.isSuffix then s
    else (s.deliverLiteral value none none target).toOption.getD s
  | _ => s

/-- A step hands over the string that waits, if there is one, and then reads the lexeme. -/
theorem moves_of_step (h : s.step l = .ok s1) :
    (s.settled l = s ∨ ∃ literal value target, s.expecting = .suffix value target ∧
      Delivers s (.literal literal) target (s.settled l)) ∧ Moves (s.settled l) l s1 := by
  cases he : s.expecting with
  | suffix value target =>
    have htarget : s.expecting.target? = some target := by rw [he]; rfl
    cases l with
    | languageTag tag =>
      have hsame : s.settled (.languageTag tag) = s := by simp [settled, he, Lexeme.isSuffix]
      simp only [step, he] at h
      obtain ⟨literal, hd⟩ := delivers_of_deliverLiteral h
      rw [hsame]
      exact ⟨.inl rfl, .deliver rfl htarget rfl hd⟩
    | datatypeMark =>
      have hsame : s.settled .datatypeMark = s := by simp [settled, he, Lexeme.isSuffix]
      simp only [step, he] at h
      obtain rfl := Except.ok.inj h
      rw [hsame]
      refine ⟨.inl rfl, Moves.expect rfl ?_ (fun items hi => ?_) (by simp)⟩
      · rw [he]
        exact List.Subset.refl _
      · rwa [he]
    | _ =>
      simp only [step, he] at h
      split at h
      · cases h
      · next s0 hs0 =>
        obtain ⟨literal, hd⟩ := delivers_of_deliverLiteral hs0
        simp only [settled, he, Lexeme.isSuffix, hs0, Except.toOption, Option.getD_some]
        exact ⟨.inr ⟨literal, value, target, rfl, hd⟩, moves_of_advance h⟩
  | _ =>
    rw [step_of_expecting (by simp [he])] at h
    have hsame : s.settled l = s := by simp [settled, he]
    rw [hsame]
    exact ⟨.inl rfl, moves_of_advance h⟩

theorem step_of_run {rest : List Lexeme} (h : machine.runLexemes s (l :: rest) = .ok s1) :
    ∃ next, s.step l = .ok next ∧ machine.runLexemes next rest = .ok s1 :=
  machine.step_of_runLexemes h

end State

end Turtle

end Rdf

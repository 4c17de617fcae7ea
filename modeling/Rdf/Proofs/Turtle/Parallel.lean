import Mathlib.Data.List.Forall2
import Rdf.Proofs.Turtle.Moves
import Rdf.Proofs.Turtle.Openings

/-!
The reader of Turtle goes the same way under every base.

States are `Parallel` when they expect the same and the same waits in them, whatever the terms are
that they hold. The grammar says the same of a lexeme in both: they go on to parallel states or
refuse it with the same fault, unless one of them finds that a name stands for nothing.
-/

namespace Rdf

/-- The lexeme but for the delimiter of a string: its kind, its value and its label. -/
def Lexeme.bare : Lexeme → Lexeme
  | string _ value => .string "" value
  | l => l

namespace Turtle

open Refusal

/-- The targets are of one kind, whatever terms they hold. -/
inductive Target.Parallel : Target → Target → Prop
  | subject : Parallel .subject .subject
  | object (s p s' p' : Term) : Parallel (.object s p) (.object s' p')
  | item (items items' : List Term) : Parallel (.item items) (.item items')

/-- The same is expected, whatever terms it is expected for. -/
inductive Expecting.Parallel : Expecting → Expecting → Prop
  | term {t t' : Target} (h : t.Parallel t') : Parallel (.term t) (.term t')
  | label (word : Directive) : Parallel (.label word) (.label word)
  | space (word : Directive) (label : String) : Parallel (.space word label) (.space word label)
  | base (word : Directive) : Parallel (.base word) (.base word)
  | directiveEnd (word : String) : Parallel (.directiveEnd word) (.directiveEnd word)
  | predicate (s s' : Term) : Parallel (.predicate s) (.predicate s')
  | firstPredicate (s s' : Term) : Parallel (.firstPredicate s) (.firstPredicate s')
  | anyPredicate (s s' : Term) : Parallel (.anyPredicate s) (.anyPredicate s')
  | more (s p s' p' : Term) : Parallel (.more s p) (.more s' p')
  | nextPredicate (s s' : Term) : Parallel (.nextPredicate s) (.nextPredicate s')
  | suffix (value : String) {t t' : Target} (h : t.Parallel t') :
    Parallel (.suffix value t) (.suffix value t')
  | datatype (value : String) {t t' : Target} (h : t.Parallel t') :
    Parallel (.datatype value t) (.datatype value t')
  | nothing : Parallel .nothing .nothing

structure State.Parallel (s s' : State) : Prop where
  expecting : s.expecting.Parallel s'.expecting
  waiting : List.Forall₂ Target.Parallel s.waiting s'.waiting

/-- The grammar has no fault to find. -/
def Faultless {α : Type} (result : Except Refusal α) : Prop := ∀ fault, result ≠ refuse fault

/-- The grammar says the same of both, if it has the say in both. -/
inductive Agree : Except Refusal State → Except Refusal State → Prop
  | ok {s s' : State} (h : s.Parallel s') : Agree (.ok s) (.ok s')
  | refused (fault : GrammarFault) : Agree (refuse fault) (refuse fault)
  | left {refusal : Refusal} {result : Except Refusal State}
    (h : ∀ fault, refusal ≠ .grammar fault) : Agree (.error refusal) result
  | right {refusal : Refusal} {result : Except Refusal State}
    (h : ∀ fault, refusal ≠ .grammar fault) : Agree result (.error refusal)

variable {s s' s1 s1' : State} {t t' : Target} {l : Lexeme} {lexemes lexemes' : List Lexeme}
  {refusal : Refusal} {fault : GrammarFault}

/-! ### Where the grammar finds no fault -/

theorem Faultless.of_error {α : Type} {result : Except Refusal α} (h : Faultless result)
    (he : result = .error refusal) (fault : GrammarFault) : refusal ≠ .grammar fault := by
  rintro rfl
  exact h fault he

theorem faultless_checked {α : Type} (result : Except Fault α) : Faultless (checked result) := by
  intro fault
  cases result <;> simp [checked, refuse]

theorem faultless_resolve (base : Option Iri) (value : String) :
    Faultless (State.resolve base value) := by
  simp only [State.resolve]
  split
  · exact faultless_checked _
  · split
    · simp [Faultless, refuse]
    · split
      · split <;> simp [Faultless, refuse]
      · simp [Faultless, refuse]

theorem faultless_expand (g : Graph) (label localPart : String) :
    Faultless (State.expand g label localPart) := by
  simp only [State.expand]
  split
  · exact faultless_checked _
  · simp [Faultless, refuse]

theorem faultless_nodeOfLabel (s : State) (label : String) : Faultless (s.nodeOfLabel label) := by
  simp only [State.nodeOfLabel]
  split
  · simp [Faultless, refuse]
  · split
    · simp [Faultless, refuse]
    · split
      · next refusal hr =>
        intro fault he
        exact (faultless_checked _).of_error hr fault (Except.error.inj he)
      · simp [Faultless, refuse]

theorem faultless_addTriple (s : State) (subject predicate object : Term) :
    Faultless (s.addTriple subject predicate object) := by
  simp only [State.addTriple]
  split
  · next refusal hr =>
    intro fault he
    exact (faultless_checked _).of_error hr fault (Except.error.inj he)
  · simp [Faultless, refuse]

theorem faultless_chain (s : State) (links : List (Term × Term)) : Faultless (s.chain links) := by
  induction links generalizing s with
  | nil => simp [State.chain, Faultless, refuse]
  | cons link rest ih =>
    simp only [State.chain]
    split
    · next refusal hr =>
      intro fault he
      exact (faultless_addTriple _ _ _ _).of_error hr fault (Except.error.inj he)
    · split
      · next refusal hr =>
        intro fault he
        exact (faultless_addTriple _ _ _ _).of_error hr fault (Except.error.inj he)
      · exact ih _

theorem Agree.bind {result result' : Except Refusal State}
    {next next' : State → Except Refusal State}
    (hnext : ∀ {s s' : State}, s.Parallel s' → Agree (next s) (next' s')) :
    Agree result result' → Agree
      (match result with
        | .error refusal => .error refusal
        | .ok s => next s)
      (match result' with
        | .error refusal => .error refusal
        | .ok s => next' s) := by
  intro h
  cases h with
  | ok h => exact hnext h
  | refused fault => exact .refused fault
  | left h => exact .left h
  | right h => exact .right h

/-! ### What a name stands for is all that can differ -/

/-- What a lexeme is found to stand for in two places: in both nothing, or in both an identifier,
unless the grammar has no say in one of them. -/
inductive Found : Option (Except Refusal Iri) → Option (Except Refusal Iri) → Prop
  | nothing : Found none none
  | left {refusal : Refusal} {found : Option (Except Refusal Iri)}
    (h : ∀ fault, refusal ≠ .grammar fault) : Found (some (.error refusal)) found
  | right {refusal : Refusal} {found : Option (Except Refusal Iri)}
    (h : ∀ fault, refusal ≠ .grammar fault) : Found found (some (.error refusal))
  | both (iri iri' : Iri) : Found (some (.ok iri)) (some (.ok iri'))

theorem Faultless.found {result result' : Except Refusal Iri} (h : Faultless result)
    (h' : Faultless result') : Found (some result) (some result') := by
  cases result with
  | error refusal => exact .left (h.of_error rfl)
  | ok iri =>
    cases result' with
    | error refusal => exact .right (h'.of_error rfl)
    | ok iri' => exact .both iri iri'

theorem found_iri? (g g' : Graph) (l : Lexeme) : Found (State.iri? g l) (State.iri? g' l) := by
  cases l with
  | iri value => exact (faultless_resolve _ _).found (faultless_resolve _ _)
  | name label localPart => exact (faultless_expand _ _ _).found (faultless_expand _ _ _)
  | _ => exact .nothing

theorem found_predicate? (g g' : Graph) (l : Lexeme) :
    Found (State.predicate? g l) (State.predicate? g' l) := by
  have hname := found_iri? g g' l
  cases l with
  | a => exact .both _ _
  | _ => exact hname

namespace State

variable {term term' : Term}

theorem agree_deliver (hw : List.Forall₂ Target.Parallel s.waiting s'.waiting)
    (ht : t.Parallel t') (term term' : Term) (mayEnd : Bool) :
    Agree (s.deliver term mayEnd t) (s'.deliver term' mayEnd t') := by
  cases ht with
  | subject =>
    refine .ok ⟨?_, hw⟩
    cases mayEnd
    · exact .predicate term term'
    · exact .anyPredicate term term'
  | object subject predicate subject' predicate' =>
    have hadd := faultless_addTriple s subject predicate term
    have hadd' := faultless_addTriple s' subject' predicate' term'
    simp only [deliver]
    cases h : s.addTriple subject predicate term with
    | error refusal => exact .left (hadd.of_error h)
    | ok s1 =>
      cases h' : s'.addTriple subject' predicate' term' with
      | error refusal => exact .right (hadd'.of_error h')
      | ok s1' =>
        obtain rfl := eq_of_addTriple h
        obtain rfl := eq_of_addTriple h'
        exact .ok ⟨.more _ _ _ _, hw⟩
  | item items items' => exact .ok ⟨.term (.item _ _), hw⟩

theorem agree_deliverLiteral (hw : List.Forall₂ Target.Parallel s.waiting s'.waiting)
    (ht : t.Parallel t') (value : String) (language : Option String)
    (datatype datatype' : Option Iri) :
    Agree (s.deliverLiteral value language datatype t)
      (s'.deliverLiteral value language datatype' t') := by
  simp only [deliverLiteral]
  split
  · next refusal h => exact .left ((faultless_checked _).of_error h)
  · split
    · next refusal h => exact .right ((faultless_checked _).of_error h)
    · exact agree_deliver hw ht _ _ false

theorem agree_nest (hw : List.Forall₂ Target.Parallel s.waiting s'.waiting) (ht : t.Parallel t') :
    s.nest t = refuse .nesting ∧ s'.nest t' = refuse .nesting ∨
      s.nest t = .ok { s with waiting := t :: s.waiting } ∧
        s'.nest t' = .ok { s' with waiting := t' :: s'.waiting } ∧
        List.Forall₂ Target.Parallel (t :: s.waiting) (t' :: s'.waiting) := by
  simp only [nest, hw.length_eq]
  split
  · exact .inl ⟨rfl, rfl⟩
  · exact .inr ⟨rfl, rfl, .cons ht hw⟩

theorem agree_beginTerm (hw : List.Forall₂ Target.Parallel s.waiting s'.waiting)
    (ht : t.Parallel t') (l : Lexeme) : Agree (s.beginTerm t l) (s'.beginTerm t' l) := by
  have hsubject : t = .subject ↔ t' = .subject := by cases ht <;> simp
  have hfound := found_iri? s.graph s'.graph l
  simp only [beginTerm]
  generalize iri? s.graph l = found, iri? s'.graph l = found' at hfound ⊢
  cases hfound with
  | left hno => exact .left hno
  | right hno => exact .right hno
  | both iri iri' => exact agree_deliver hw ht _ _ false
  | nothing =>
    cases l with
    | blank label =>
      dsimp only
      split
      · next refusal h => exact .left ((faultless_nodeOfLabel s label).of_error h)
      · next node s1 h =>
        split
        · next refusal h' => exact .right ((faultless_nodeOfLabel s' label).of_error h')
        · next node' s1' h' =>
          refine agree_deliver ?_ ht node node' false
          rwa [waiting_of_nodeOfLabel h, waiting_of_nodeOfLabel h']
    | punct mark =>
      cases mark with
      | openBracket =>
        obtain ⟨hn, hn'⟩ | ⟨hn, hn', hboth⟩ := agree_nest hw ht
        · simp only [hn, hn', refuse]
          exact .refused .nesting
        · simp only [hn, hn']
          exact .ok ⟨.firstPredicate _ _, hboth⟩
      | openParen =>
        obtain ⟨hn, hn'⟩ | ⟨hn, hn', hboth⟩ := agree_nest hw ht
        · simp only [hn, hn', refuse]
          exact .refused .nesting
        · simp only [hn, hn']
          exact .ok ⟨.term (.item [] []), hboth⟩
      | _ =>
        simp only [hsubject]
        exact .refused _
    | string delimiter value =>
      simp only [hsubject]
      split
      · exact .refused .subject
      · exact .ok ⟨.suffix value ht, hw⟩
    | number kind text =>
      simp only [hsubject]
      split
      · exact .refused .subject
      · exact agree_deliverLiteral hw ht _ _ _ _
    | boolean text =>
      simp only [hsubject]
      split
      · exact .refused .subject
      · exact agree_deliverLiteral hw ht _ _ _ _
    | _ =>
      simp only [hsubject]
      exact .refused _

/-! ### Brackets, collections and predicates -/

theorem agree_closeBracket (hw : List.Forall₂ Target.Parallel s.waiting s'.waiting)
    (node node' : Term) (hadContent : Bool) :
    Agree (s.closeBracket node hadContent) (s'.closeBracket node' hadContent) := by
  obtain ⟨g, labels, waiting, expecting⟩ := s
  obtain ⟨g', labels', waiting', expecting'⟩ := s'
  cases hw with
  | nil => exact .refused .bracketEnd
  | cons ht hw =>
    exact @agree_deliver ⟨g, labels, _, expecting⟩ ⟨g', labels', _, expecting'⟩ _ _ hw ht _ _ _

theorem agree_closeCollection (hw : List.Forall₂ Target.Parallel s.waiting s'.waiting)
    (items items' : List Term) :
    Agree (s.closeCollection items) (s'.closeCollection items') := by
  obtain ⟨g, labels, waiting, expecting⟩ := s
  obtain ⟨g', labels', waiting', expecting'⟩ := s'
  cases hw with
  | nil => exact .refused .collectionEnd
  | cons ht hw =>
    simp only [closeCollection]
    split
    · next refusal h => exact .left ((faultless_chain _ _).of_error h)
    · next s1 h =>
      split
      · next refusal h' => exact .right ((faultless_chain _ _).of_error h')
      · next s1' h' =>
        obtain rfl := eq_of_chain h
        obtain rfl := eq_of_chain h'
        exact agree_deliver hw ht _ _ false

theorem agree_predicateOr (hw : List.Forall₂ Target.Parallel s.waiting s'.waiting)
    (subject subject' : Term) (l : Lexeme) {otherwise otherwise' : Except Refusal State}
    (h : Agree otherwise otherwise') :
    Agree (s.predicateOr subject l otherwise) (s'.predicateOr subject' l otherwise') := by
  have hfound := found_predicate? s.graph s'.graph l
  simp only [predicateOr]
  generalize predicate? s.graph l = found, predicate? s'.graph l = found' at hfound ⊢
  cases hfound with
  | left hno => exact .left hno
  | right hno => exact .right hno
  | both iri iri' => exact .ok ⟨.term (.object _ _ _ _), hw⟩
  | nothing => exact h

theorem agree_endSubject (hw : List.Forall₂ Target.Parallel s.waiting s'.waiting)
    (subject subject' : Term) (l : Lexeme) :
    Agree (s.endSubject subject l) (s'.endSubject subject' l) := by
  have hclose := agree_closeBracket hw subject subject' true
  obtain ⟨g, labels, waiting, expecting⟩ := s
  obtain ⟨g', labels', waiting', expecting'⟩ := s'
  cases hw with
  | nil =>
    simp only [endSubject]
    split
    · exact .ok ⟨.term .subject, .nil⟩
    · exact .refused .statementEnd
  | cons ht hw =>
    simp only [endSubject]
    split
    · exact hclose
    · exact .refused .bracketEnd

theorem agree_endDirective (hw : List.Forall₂ Target.Parallel s.waiting s'.waiting)
    (g g' : Graph) (word : Directive) :
    Agree (.ok ({ s with graph := g }.endDirective word))
      (.ok ({ s' with graph := g' }.endDirective word)) := by
  by_cases hd : word.isDotted = true
  · simp only [endDirective, hd, if_true]
    exact .ok ⟨.directiveEnd word.word, hw⟩
  · simp only [endDirective, hd]
    exact .ok ⟨.term .subject, hw⟩

/-! ### Steps -/

theorem agree_term (hw : List.Forall₂ Target.Parallel s.waiting s'.waiting) (ht : t.Parallel t')
    (he : s.expecting = .term t) (he' : s'.expecting = .term t') (l : Lexeme) :
    Agree (s.advance l) (s'.advance l) := by
  have hbegin := agree_beginTerm hw ht l
  cases ht with
  | subject =>
    cases l with
    | eof =>
      simp only [advance, he, he']
      exact .ok ⟨.nothing, hw⟩
    | directive word =>
      simp only [advance, he, he', openDirective]
      cases word.declares with
      | label => exact .ok ⟨.label word, hw⟩
      | base => exact .ok ⟨.base word, hw⟩
    | _ => simpa only [advance, he, he'] using hbegin
  | object subject predicate subject' predicate' =>
    cases l <;> simpa only [advance, he, he'] using hbegin
  | item items items' =>
    cases l with
    | eof =>
      simp only [advance, he, he']
      exact .refused .collectionEnd
    | punct mark =>
      cases mark with
      | closeParen =>
        simp only [advance, he, he']
        exact agree_closeCollection hw items items'
      | _ => simpa only [advance, he, he'] using hbegin
    | _ => simpa only [advance, he, he'] using hbegin

theorem agree_advance (h : s.Parallel s') (l : Lexeme) : Agree (s.advance l) (s'.advance l) := by
  obtain ⟨hexpecting, hw⟩ := h
  generalize he : s.expecting = expecting, he' : s'.expecting = expecting' at hexpecting
  cases hexpecting with
  | term ht => exact agree_term hw ht he he' l
  | label word =>
    cases l with
    | name label localPart =>
      by_cases hempty : localPart = ""
      · subst hempty
        simp only [advance, he, he']
        exact .ok ⟨.space word label, hw⟩
      · have hrefused : ∀ {s : State}, s.expecting = .label word →
            s.advance (.name label localPart) = refuse (.directiveLabel word.word) :=
          fun he => by simp [advance, he, hempty]
        rw [hrefused he, hrefused he']
        exact .refused _
    | _ =>
      simp only [advance, he, he']
      exact .refused _
  | space word label =>
    cases l with
    | iri value =>
      simp only [advance, he, he']
      split
      · next refusal hr => exact .left ((faultless_resolve _ _).of_error hr)
      · split
        · next refusal hr => exact .right ((faultless_resolve _ _).of_error hr)
        · exact agree_endDirective hw _ _ word
    | _ =>
      simp only [advance, he, he']
      exact .refused _
  | base word =>
    cases l with
    | iri value =>
      simp only [advance, he, he']
      split
      · next refusal hr => exact .left ((faultless_resolve _ _).of_error hr)
      · split
        · next refusal hr => exact .right ((faultless_resolve _ _).of_error hr)
        · exact agree_endDirective hw _ _ word
    | _ =>
      simp only [advance, he, he']
      exact .refused _
  | directiveEnd word =>
    by_cases hdot : l = .punct .dot
    · subst hdot
      simp only [advance, he, he']
      exact .ok ⟨.term .subject, hw⟩
    · simp only [advance, he, he']
      exact .refused _
  | predicate subject subject' =>
    simp only [advance, he, he']
    exact agree_predicateOr hw subject subject' l (.refused _)
  | firstPredicate node node' =>
    by_cases hclose : l = .punct .closeBracket
    · subst hclose
      simp only [advance, he, he']
      exact agree_closeBracket hw node node' false
    · simp only [advance, he, he']
      exact agree_predicateOr hw node node' l (.refused _)
  | anyPredicate subject subject' =>
    simp only [advance, he, he']
    exact agree_predicateOr hw subject subject' l (agree_endSubject hw subject subject' l)
  | more subject predicate subject' predicate' =>
    have hend := agree_endSubject hw subject subject' l
    cases l with
    | punct mark =>
      cases mark with
      | comma =>
        simp only [advance, he, he']
        exact .ok ⟨.term (.object _ _ _ _), hw⟩
      | semicolon =>
        simp only [advance, he, he']
        exact .ok ⟨.nextPredicate _ _, hw⟩
      | _ => simpa only [advance, he, he'] using hend
    | _ => simpa only [advance, he, he'] using hend
  | nextPredicate subject subject' =>
    by_cases hsemicolon : l = .punct .semicolon
    · subst hsemicolon
      simp only [advance, he, he']
      exact .ok ⟨by rw [he, he']; exact .nextPredicate subject subject', hw⟩
    · simp only [advance, he, he']
      exact agree_predicateOr hw subject subject' l (agree_endSubject hw subject subject' l)
  | suffix value ht =>
    simp only [advance, he, he']
    exact .refused .object
  | datatype value ht =>
    have hfound := found_iri? s.graph s'.graph l
    simp only [advance, he, he']
    generalize iri? s.graph l = found, iri? s'.graph l = found' at hfound ⊢
    cases hfound with
    | left hno => exact .left hno
    | right hno => exact .right hno
    | both iri iri' => exact agree_deliverLiteral hw ht value none _ _
    | nothing => exact .refused .datatype
  | nothing =>
    simp only [advance, he, he']
    exact .ok ⟨by rw [he, he']; exact .nothing, hw⟩

/-- Parallel states take a lexeme the same way. -/
theorem agree_step (h : s.Parallel s') (l : Lexeme) : Agree (s.step l) (s'.step l) := by
  have hexpecting := h.expecting
  generalize he : s.expecting = expecting, he' : s'.expecting = expecting' at hexpecting
  cases hexpecting with
  | suffix value ht =>
    cases l with
    | languageTag tag =>
      simp only [step, he, he']
      exact agree_deliverLiteral h.waiting ht value (some tag) none none
    | datatypeMark =>
      simp only [step, he, he']
      exact .ok ⟨.datatype value ht, h.waiting⟩
    | _ =>
      -- the string ends in both states, and the lexeme is read behind it
      simp only [step, he, he']
      exact .bind (fun h => agree_advance h _)
        (agree_deliverLiteral h.waiting ht value none none none)
  | _ =>
    rw [step_of_expecting (by simp [he]), step_of_expecting (by simp [he'])]
    exact agree_advance h l

theorem step_bare (s : State) (l : Lexeme) : s.step l.bare = s.step l := by
  cases l with
  | string delimiter value =>
    have hadvance : ∀ s : State,
        s.advance (.string "" value) = s.advance (.string delimiter value) := by
      intro s
      cases he : s.expecting with
      | term target => cases target <;> simp [advance, he, beginTerm, iri?]
      | _ =>
        simp [advance, he, predicateOr, predicate?, iri?, endSubject]
    simp only [step, Lexeme.bare, hadvance]
  | _ => rfl

/-! ### Runs -/

/-- Over lexemes that are the same but for delimiters, parallel states lead to parallel states. -/
theorem parallel_of_run (h : s.Parallel s')
    (hsame : lexemes.map Lexeme.bare = lexemes'.map Lexeme.bare)
    (hrun : machine.runLexemes s lexemes = .ok s1)
    (hrun' : machine.runLexemes s' lexemes' = .ok s1') : s1.Parallel s1' := by
  induction lexemes generalizing s s' lexemes' with
  | nil =>
    obtain rfl : lexemes' = [] := by simpa using hsame.symm
    obtain rfl := Except.ok.inj hrun
    obtain rfl := Except.ok.inj hrun'
    exact h
  | cons l lexemes ih =>
    obtain ⟨l', rest', rfl, hl, hrest⟩ := List.map_eq_cons_iff.1 hsame.symm
    obtain ⟨next, hs, hlater⟩ := step_of_run hrun
    obtain ⟨next', hs', hlater'⟩ := step_of_run hrun'
    have hagree := agree_step h l
    rw [hs, ← step_bare s' l, ← hl, step_bare, hs'] at hagree
    cases hagree with
    | ok hnext => exact ih hnext hrest.symm hlater hlater'

/-- What the grammar refuses behind some lexemes, it refuses behind the same under every base. -/
theorem not_ok_of_refused (h : s.Parallel s')
    (hsame : (lexemes ++ [l]).map Lexeme.bare <+: lexemes'.map Lexeme.bare)
    (hrun : machine.runLexemes s lexemes = .ok s1) (hl : s1.step l = refuse fault) (next : State) :
    machine.runLexemes s' lexemes' ≠ .ok next := by
  intro hrun'
  obtain ⟨more, hmore⟩ := hsame
  rw [List.map_append, List.append_assoc, eq_comm, List.map_eq_append_iff] at hmore
  obtain ⟨before, rest, rfl, hbefore, hrest⟩ := hmore
  obtain ⟨l', after, rfl, hl', -⟩ := List.map_eq_cons_iff.1 hrest
  obtain ⟨middle, hfirst, hlater⟩ := machine.between_of_runLexemes hrun'
  obtain ⟨next', hs, -⟩ := step_of_run hlater
  have hagree := agree_step (parallel_of_run h hbefore.symm hrun hfirst) l
  rw [hl, ← step_bare middle l, ← hl', step_bare, hs] at hagree
  cases hagree with
  | left hno => exact hno fault rfl

end State

end Turtle

end Rdf

import Rdf.Proofs.Turtle.Labelling

/-!
How deep the reader of Turtle is.

The targets that wait are as many as the brackets and parentheses that are open. Another one is
refused for its depth just where there is no room for it and something that has no depth, such as a
label, could stand in its place.
-/

namespace Rdf

/-! ### What is open -/

namespace Lexeme

def opens : Lexeme → Bool
  | .punct .openBracket | .punct .openParen => true
  | _ => false

def closes : Lexeme → Bool
  | .punct .closeBracket | .punct .closeParen => true
  | _ => false

def isFlat (l : Lexeme) : Bool := !l.opens && !l.closes

theorem isFlat_iff {l : Lexeme} : l.isFlat = true ↔ l.opens = false ∧ l.closes = false := by
  simp [isFlat]

/-- All that is opened in a row of lexemes, and no more, is closed in it. -/
def Balanced (lexemes : List Lexeme) : Prop := lexemes.countP opens = lexemes.countP closes

theorem not_opens_of_isSimple {l : Lexeme} (h : l.isSimple = true) :
    l.opens = false ∧ l.closes = false := by
  cases l with
  | punct mark => cases mark <;> first | exact ⟨rfl, rfl⟩ | cases h
  | _ => exact ⟨rfl, rfl⟩

theorem Balanced.append {first second : List Lexeme} (h1 : Balanced first)
    (h2 : Balanced second) : Balanced (first ++ second) := by
  simp only [Balanced, List.countP_append] at h1 h2 ⊢
  omega

theorem Balanced.of_flat {lexemes : List Lexeme} (h : ∀ l ∈ lexemes, l.isFlat = true) :
    Balanced lexemes := by
  have hopens : lexemes.countP opens = 0 :=
    List.countP_eq_zero.2 fun l hl => by simp [(isFlat_iff.1 (h l hl)).1]
  have hcloses : lexemes.countP closes = 0 :=
    List.countP_eq_zero.2 fun l hl => by simp [(isFlat_iff.1 (h l hl)).2]
  rw [Balanced, hopens, hcloses]

end Lexeme

namespace Turtle

open Refusal

variable {s s1 : State} {l : Lexeme} {target : Target} {term : Term} {read : List Lexeme}
  {label : String}

theorem Delivers.waiting (h : Delivers s term target s1) : s1.waiting = s.waiting := by
  cases h <;> rfl

namespace State

theorem waiting_of_moves (h : Moves s l s1) (hlive : s.expecting ≠ .nothing) :
    s1.waiting.length + l.closes.toNat = s.waiting.length + l.opens.toNat := by
  cases h with
  | ended he => exact absurd he hlive
  | turn hl => simp [Lexeme.not_opens_of_isSimple hl]
  | deliver hl _ _ hd => simp [Lexeme.not_opens_of_isSimple hl, hd.waiting]
  | label _ hnode hd => simp [Lexeme.opens, Lexeme.closes, hd.waiting, waiting_of_nodeOfLabel hnode]
  | openBracket | openParen => simp [Lexeme.opens, Lexeme.closes]
  | closeBracket _ hw hd => simp [Lexeme.opens, Lexeme.closes, hd.waiting, hw]
  | closeParen _ hw hd => simp [Lexeme.opens, Lexeme.closes, hd.waiting, hw, chained]

theorem waiting_of_step (h : s.step l = .ok s1) (hlive : s.expecting ≠ .nothing) :
    s1.waiting.length + l.closes.toNat = s.waiting.length + l.opens.toNat := by
  have hsettled : (s.settled l).waiting = s.waiting := by
    obtain hsame | ⟨literal, value, target, -, hd⟩ := (moves_of_step h).1
    · rw [hsame]
    · exact hd.waiting
  have hmoves := waiting_of_moves (moves_of_step h).2 (mt (settled_ended h).1 hlive)
  rwa [hsettled] at hmoves

/-- Behind the end of a document nothing happens. -/
theorem step_nothing (he : s.expecting = .nothing) (l : Lexeme) : s.step l = .ok s := by
  simp [step, advance, he]

theorem live_before_step (h : s.step l = .ok s1) (hlive : s1.expecting ≠ .nothing) :
    s.expecting ≠ .nothing := by
  intro he
  obtain rfl := Except.ok.inj ((step_nothing he l).symm.trans h)
  exact hlive he

theorem live_before_run (h : machine.runLexemes s read = .ok s1) (hlive : s1.expecting ≠ .nothing) :
    s.expecting ≠ .nothing := by
  induction read generalizing s with
  | nil => exact Except.ok.inj h ▸ hlive
  | cons l read ih =>
    obtain ⟨next, hs, hrest⟩ := step_of_run h
    exact live_before_step hs (ih hrest)

/-- What waits behind a row of lexemes is what they have opened and not closed. -/
theorem waiting_of_run (h : machine.runLexemes s read = .ok s1) (hlive : s1.expecting ≠ .nothing) :
    s1.waiting.length + read.countP Lexeme.closes =
      s.waiting.length + read.countP Lexeme.opens := by
  induction read generalizing s with
  | nil => exact Except.ok.inj h ▸ rfl
  | cons l read ih =>
    obtain ⟨next, hs, hrest⟩ := step_of_run h
    have hfirst := waiting_of_step hs (live_before_run h hlive)
    have hlater := ih hrest
    have hcount : ∀ kind : Lexeme → Bool,
        (l :: read).countP kind = read.countP kind + (kind l).toNat := fun kind => by
      rw [List.countP_cons]
      cases kind l <;> rfl
    rw [hcount, hcount]
    omega

/-! ### No room -/

/-- Where a label could be read and there is no room, nothing can be opened. -/
theorem advance_nesting (h : s.advance (.blank label) = .ok s1) (hlive : s.expecting ≠ .nothing)
    (hfull : maxNesting ≤ s.waiting.length) (hl : l.opens = true) :
    s.advance l = refuse .nesting := by
  have hterm : ∃ target, s.expecting = .term target := by
    cases moves_of_advance h with
    | ended he => exact absurd he hlive
    | turn hsimple | deliver hsimple => cases hsimple
    | label ht => exact ⟨_, ht⟩
  obtain ⟨target, he⟩ := hterm
  have hmark : l = .punct .openBracket ∨ l = .punct .openParen := by
    cases l with
    | punct mark => cases mark <;> first | exact .inl rfl | exact .inr rfl | cases hl
    | _ => cases hl
  obtain rfl | rfl := hmark <;> cases target <;>
    simp [advance, he, beginTerm, iri?, nest, hfull, refuse]

theorem step_nesting (h : s.step (.blank label) = .ok s1) (hlive : s.expecting ≠ .nothing)
    (hfull : maxNesting ≤ s.waiting.length) (hl : l.opens = true) :
    s.step l = refuse .nesting := by
  cases he : s.expecting with
  | suffix value target =>
    simp only [step, he] at h
    split at h
    · cases h
    · next s0 hs0 =>
      obtain ⟨literal, hd⟩ := delivers_of_deliverLiteral hs0
      have hrest := advance_nesting h (expecting_of_delivers hd) (by rwa [hd.waiting]) hl
      cases l with
      | punct mark => simp only [step, he, hs0, hrest]
      | _ => cases hl
  | _ =>
    have hsame : ∀ l, s.step l = s.advance l := fun l => step_of_expecting (by simp [he])
    rw [hsame] at h ⊢
    exact advance_nesting h hlive hfull hl

/-! ### What is refused for its depth -/

/-- The result is no refusal for a depth. -/
def Unhindered {α : Type} (result : Except Refusal α) : Prop := result ≠ refuse .nesting

theorem unhindered_checked {α : Type} (result : Except Fault α) : Unhindered (checked result) := by
  cases result <;> nofun

theorem unhindered_resolve (base : Option Iri) (value : String) :
    Unhindered (State.resolve base value) := by
  have hchecked := unhindered_checked (Iri.ofText value)
  unfold State.resolve
  grind [Unhindered, refuse]

theorem unhindered_expand (g : Graph) (label localPart : String) :
    Unhindered (State.expand g label localPart) := by
  have hchecked := fun iri : Iri => unhindered_checked (Iri.ofText (iri.value ++ localPart))
  unfold State.expand
  grind [Unhindered, refuse]

theorem unhindered_iri {g : Graph} {result : Except Refusal Iri} (h : State.iri? g l = some result) :
    Unhindered result := by
  have hresolve := unhindered_resolve
  have hexpand := unhindered_expand
  unfold State.iri? at h
  grind

theorem unhindered_nodeOfLabel (s : State) (label : String) : Unhindered (s.nodeOfLabel label) := by
  have hchecked := unhindered_checked (s.graph.reserve (.text label))
  unfold State.nodeOfLabel
  grind [Unhindered, refuse]

theorem unhindered_addTriple (s : State) (subject predicate object : Term) :
    Unhindered (s.addTriple subject predicate object) := by
  have hchecked := unhindered_checked (Triple.make subject predicate object)
  unfold State.addTriple
  grind [Unhindered, refuse]

theorem unhindered_deliver (s : State) (term : Term) (mayEnd : Bool) (target : Target) :
    Unhindered (s.deliver term mayEnd target) := by
  have hadd := s.unhindered_addTriple
  unfold State.deliver
  grind [Unhindered, refuse]

theorem unhindered_deliverLiteral (s : State) (value : String) (language : Option String)
    (datatype : Option Iri) (target : Target) :
    Unhindered (s.deliverLiteral value language datatype target) := by
  have hchecked := unhindered_checked (Literal.make (.text value) language (datatype.map .proper))
  have hdeliver := s.unhindered_deliver
  unfold State.deliverLiteral
  grind [Unhindered, refuse]

theorem unhindered_chain (s : State) (cells : List (Term × Term)) : Unhindered (s.chain cells) := by
  induction cells generalizing s with
  | nil => nofun
  | cons cell cells ih =>
    have hadd := unhindered_addTriple
    unfold State.chain
    grind [Unhindered, refuse]

theorem unhindered_closeBracket (s : State) (node : Term) (hadContent : Bool) :
    Unhindered (s.closeBracket node hadContent) := by
  have hdeliver := unhindered_deliver
  unfold State.closeBracket
  grind [Unhindered, refuse]

theorem unhindered_closeCollection (s : State) (items : List Term) :
    Unhindered (s.closeCollection items) := by
  have hdeliver := unhindered_deliver
  have hchain := unhindered_chain
  unfold State.closeCollection
  grind [Unhindered, refuse]

theorem unhindered_predicateOr (s : State) (subject : Term) (l : Lexeme)
    {otherwise : Except Refusal State} (h : Unhindered otherwise) :
    Unhindered (s.predicateOr subject l otherwise) := by
  have hiri := fun g result => @unhindered_iri l g result
  unfold State.predicateOr State.predicate?
  grind [Unhindered, refuse]

theorem unhindered_endSubject (s : State) (subject : Term) (l : Lexeme) :
    Unhindered (s.endSubject subject l) := by
  have hclose := s.unhindered_closeBracket
  unfold State.endSubject
  grind [Unhindered, refuse]

theorem full_of_nest (h : s.nest target = refuse .nesting) : maxNesting ≤ s.waiting.length := by
  unfold nest at h
  split at h
  · assumption
  · cases h

/-- Only a bracket or a parenthesis is refused for its depth, where there is no room for it. -/
theorem full_of_beginTerm (h : s.beginTerm target l = refuse .nesting) :
    l.opens = true ∧ maxNesting ≤ s.waiting.length := by
  have hiri := fun g result => @unhindered_iri l g result
  have hdeliver := unhindered_deliver
  have hliteral := unhindered_deliverLiteral
  have hlabel := s.unhindered_nodeOfLabel
  have hnest := @full_of_nest s
  unfold beginTerm at h
  cases l with
  | punct mark => cases mark <;> grind [Unhindered, refuse, Lexeme.opens]
  | _ => grind [Unhindered, refuse]

theorem full_of_advance (h : s.advance l = refuse .nesting) :
    l.opens = true ∧ maxNesting ≤ s.waiting.length := by
  have hbegin := @full_of_beginTerm s l
  have hresolve := unhindered_resolve
  have hliteral := unhindered_deliverLiteral
  have hiri := fun g result => @unhindered_iri l g result
  have hpredicate := @unhindered_predicateOr
  have hend := unhindered_endSubject
  have hbracket := unhindered_closeBracket
  have hcollection := unhindered_closeCollection
  unfold advance at h
  split at h <;> grind [Unhindered, refuse]

theorem full_of_step (h : s.step l = refuse .nesting) :
    l.opens = true ∧ maxNesting ≤ s.waiting.length := by
  cases he : s.expecting with
  | suffix value target =>
    have hliteral := s.unhindered_deliverLiteral value
    simp only [step, he] at h
    split at h
    · exact absurd h (hliteral _ _ _)
    · cases h
    · split at h
      · next hs => exact absurd (h ▸ hs) (hliteral _ _ _)
      · next s0 hs =>
        obtain ⟨literal, hd⟩ := delivers_of_deliverLiteral hs
        exact hd.waiting ▸ full_of_advance h
  | _ =>
    rw [step_of_expecting (by simp [he])] at h
    exact full_of_advance h

end State

end Turtle

end Rdf

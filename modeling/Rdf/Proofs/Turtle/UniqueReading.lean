import Rdf.Proofs.Turtle.Statements

/-!
Unique reading of documents.

A row of lexemes can be read as a phrase in one way only, given what may follow the phrase. The
phrases here have no marks, since marks show nowhere in lexemes.
-/

namespace Rdf.Turtle

variable {part : Part} {l : Lexeme} {rest rest' : List Lexeme}

/-! ### What follows -/

/-- What may stand behind a part of a document. -/
def Follows : Part → List Lexeme → Prop
  | .resource, _ => True
  | .object, rest => StartsFree rest
  | .items, rest => ∃ more, rest = .punct .closeParen :: more
  | .objects, rest => ∃ mark more, rest = .punct mark :: more ∧ mark ≠ .comma
  | .predicates, rest | .more, rest =>
    ∃ mark more, rest = .punct mark :: more ∧ (mark = .dot ∨ mark = .closeBracket)

namespace Follows

theorem startsFree (h : Follows part rest) (hpart : part ≠ .resource) : StartsFree rest := by
  cases part with
  | resource => exact (hpart rfl).elim
  | object => exact h
  | items =>
    obtain ⟨more, rfl⟩ := h
    exact ⟨_, _, rfl, rfl⟩
  | objects | predicates | more =>
    obtain ⟨mark, more, rfl, -⟩ := h
    exact ⟨_, _, rfl, rfl⟩

theorem closeBracket : Follows .predicates (.punct .closeBracket :: rest) :=
  ⟨_, _, rfl, .inr rfl⟩

/-- Objects are followed by a semicolon, or by what follows the predicates. -/
theorem objects_of_more (more : Phrase Unit .more) (h : Follows .more rest) :
    Follows .objects (more.lexemes ++ rest) := by
  cases more with
  | noMore =>
    obtain ⟨mark, behind, rfl, hmark⟩ := h
    refine ⟨mark, behind, rfl, ?_⟩
    rintro rfl
    simp at hmark
  | semicolon _ | nextPredicates _ => exact ⟨_, _, rfl, by simp⟩

end Follows

/-! ### Beginnings -/

theorem Name.lexeme_inj {n n' : Name} (h : n.lexeme = n'.lexeme) : n = n' := by
  cases n <;> cases n' <;> simp_all [lexeme]

theorem Verb.lexeme_inj {verb verb' : Verb} (h : verb.lexeme = verb'.lexeme) : verb = verb' := by
  cases verb with
  | a =>
    cases verb' with
    | a => rfl
    | name n => cases n <;> simp [lexeme, Name.lexeme] at h
  | name n =>
    cases verb' with
    | a => cases n <;> simp [lexeme, Name.lexeme] at h
    | name n' => exact congrArg Verb.name (Name.lexeme_inj h)

theorem Verb.lexeme_ne_punct (verb : Verb) (mark : Punct) : verb.lexeme ≠ .punct mark := by
  cases verb with
  | a => simp [lexeme]
  | name n => cases n <;> simp [lexeme, Name.lexeme]

namespace Phrase

theorem object_begins (p : Phrase Unit .object) (rest : List Lexeme) :
    ∃ l more, p.lexemes ++ rest = l :: more ∧ l.beginsTerm = true := by
  cases p with
  | resource node =>
    cases node with
    | name n => cases n <;> exact ⟨_, _, rfl, rfl⟩
    | _ => exact ⟨_, _, rfl, rfl⟩
  | constant literal => cases literal <;> exact ⟨_, _, rfl, rfl⟩

theorem predicates_ne_punct (p : Phrase Unit .predicates) {mark : Punct} :
    p.lexemes ++ rest ≠ .punct mark :: rest' := by
  cases p with
  | predicates verb _ _ _ => exact fun h => verb.lexeme_ne_punct mark (List.cons.inj h).1

theorem object_ne (p : Phrase Unit .object) (hl : l.beginsTerm = false) :
    p.lexemes ++ rest ≠ l :: rest' := by
  obtain ⟨first, more, hp, hfirst⟩ := p.object_begins rest
  rw [hp]
  intro h
  obtain ⟨rfl, -⟩ := List.cons.inj h
  simp [hl] at hfirst

/-- No resource begins like a literal. -/
theorem ne_constant (p : Phrase Unit .resource) {literal : Constant} :
    p.lexemes ++ rest ≠ literal.lexemes ++ rest' := by
  cases p with
  | name n => cases n <;> cases literal <;> simp [lexemes, Name.lexeme, Constant.lexemes]
  | _ => cases literal <;> simp [lexemes, Constant.lexemes]

/-- What stands behind the objects of a predicate begins with a mark. -/
theorem more_begins (p : Phrase Unit .more) (hrest : Follows .more rest) :
    ∃ mark after, p.lexemes ++ rest = .punct mark :: after := by
  cases p with
  | noMore =>
    obtain ⟨mark, after, rfl, -⟩ := hrest
    exact ⟨mark, after, rfl⟩
  | semicolon _ | nextPredicates _ => exact ⟨_, _, rfl⟩

end Phrase

/-! ### Unique reading -/

/-- What is no suffix of a string does not belong to the string before it. -/
theorem Suffix.eq_of_lexemes {suffix suffix' : Suffix} (hrest : StartsFree rest)
    (hrest' : StartsFree rest') (h : suffix.lexemes ++ rest = suffix'.lexemes ++ rest') :
    suffix = suffix' ∧ rest = rest' := by
  obtain ⟨l, more, rfl, hl⟩ := hrest
  obtain ⟨l', more', rfl, hl'⟩ := hrest'
  cases suffix with
  | nothing =>
    cases suffix' with
    | nothing => exact ⟨rfl, h⟩
    | _ =>
      obtain ⟨rfl, -⟩ := List.cons.inj h
      simp [Lexeme.isSuffix] at hl
  | language tag =>
    cases suffix' with
    | nothing =>
      obtain ⟨rfl, -⟩ := List.cons.inj h
      simp [Lexeme.isSuffix] at hl'
    | language _ => simpa [lexemes] using h
    | datatype _ => simp [lexemes] at h
  | datatype n =>
    cases suffix' with
    | nothing =>
      obtain ⟨rfl, -⟩ := List.cons.inj h
      simp [Lexeme.isSuffix] at hl'
    | language tag => simp [lexemes] at h
    | datatype n' =>
      obtain ⟨-, h⟩ := List.cons.inj h
      obtain ⟨hn, h⟩ := List.cons.inj h
      exact ⟨congrArg Suffix.datatype (Name.lexeme_inj hn), h⟩

theorem Constant.eq_of_lexemes {literal literal' : Constant} (hrest : StartsFree rest)
    (hrest' : StartsFree rest') (h : literal.lexemes ++ rest = literal'.lexemes ++ rest') :
    literal = literal' ∧ rest = rest' := by
  cases literal with
  | string delimiter value suffix =>
    cases literal' with
    | string delimiter' value' suffix' =>
      simp only [lexemes, List.cons_append, List.cons.injEq, Lexeme.string.injEq] at h
      obtain ⟨⟨rfl, rfl⟩, hsuffix⟩ := h
      obtain ⟨rfl, rfl⟩ := Suffix.eq_of_lexemes hrest hrest' hsuffix
      exact ⟨rfl, rfl⟩
    | _ => simp [lexemes] at h
  | _ => cases literal' <;> simp_all [lexemes]

/-- A phrase is the only one of its part that its lexemes begin with. -/
theorem Phrase.eq_of_lexemes (p q : Phrase Unit part) (hrest : Follows part rest)
    (hrest' : Follows part rest') (h : p.lexemes ++ rest = q.lexemes ++ rest') :
    p = q ∧ rest = rest' := by
  induction p generalizing rest rest' with
  | name n =>
    cases q with
    | name n' =>
      obtain ⟨hn, hrest⟩ := List.cons.inj h
      exact ⟨congrArg Phrase.name (Name.lexeme_inj hn), hrest⟩
    | _ => cases n <;> simp [lexemes, Name.lexeme] at h
  | blank label =>
    cases q with
    | name n => cases n <;> simp [lexemes, Name.lexeme] at h
    | _ => simp_all [lexemes]
  | emptyBracket node =>
    cases q with
    | name n => cases n <;> simp [lexemes, Name.lexeme] at h
    | bracket node' content =>
      simp only [lexemes, List.cons_append, List.append_assoc] at h
      exact (content.predicates_ne_punct (List.cons.inj h).2.symm).elim
    | _ => simp_all [lexemes]
  | bracket node content ih =>
    cases q with
    | name n => cases n <;> simp [lexemes, Name.lexeme] at h
    | emptyBracket node' =>
      simp only [lexemes, List.cons_append, List.append_assoc] at h
      exact (content.predicates_ne_punct (List.cons.inj h).2).elim
    | bracket node' content' =>
      simp only [lexemes, List.cons_append, List.append_assoc] at h
      obtain ⟨rfl, hbehind⟩ := ih content' .closeBracket .closeBracket (List.cons.inj h).2
      exact ⟨rfl, (List.cons.inj hbehind).2⟩
    | _ => simp [lexemes] at h
  | collection items ih =>
    cases q with
    | name n => cases n <;> simp [lexemes, Name.lexeme] at h
    | collection items' =>
      simp only [lexemes, List.cons_append, List.append_assoc] at h
      obtain ⟨rfl, hbehind⟩ := ih items' ⟨_, rfl⟩ ⟨_, rfl⟩ (List.cons.inj h).2
      exact ⟨rfl, (List.cons.inj hbehind).2⟩
    | _ => simp [lexemes] at h
  | resource node ih =>
    cases q with
    | resource node' =>
      obtain ⟨rfl, hbehind⟩ := ih node' trivial trivial h
      exact ⟨rfl, hbehind⟩
    | constant literal => exact (node.ne_constant h).elim
  | constant literal =>
    cases q with
    | resource node => exact (node.ne_constant h.symm).elim
    | constant literal' =>
      obtain ⟨rfl, hbehind⟩ := Constant.eq_of_lexemes hrest hrest' h
      exact ⟨rfl, hbehind⟩
  | noItems =>
    obtain ⟨more, rfl⟩ := hrest
    cases q with
    | noItems => exact ⟨rfl, h⟩
    | item _ first _ =>
      simp only [lexemes, List.append_assoc] at h
      exact (first.object_ne rfl h.symm).elim
  | item cell first others ih1 ih2 =>
    cases q with
    | noItems =>
      obtain ⟨more, rfl⟩ := hrest'
      simp only [lexemes, List.append_assoc] at h
      exact (first.object_ne rfl h).elim
    | item cell' first' others' =>
      simp only [lexemes, List.append_assoc] at h
      obtain ⟨rfl, hothers⟩ := ih1 first' (others.startsFree (hrest.startsFree (by simp)))
        (others'.startsFree (hrest'.startsFree (by simp))) h
      obtain ⟨rfl, hbehind⟩ := ih2 others' hrest hrest' hothers
      exact ⟨rfl, hbehind⟩
  | noObjects =>
    cases q with
    | noObjects => exact ⟨rfl, h⟩
    | nextObject _ _ =>
      obtain ⟨mark, more, rfl, hmark⟩ := hrest
      exact (hmark (Lexeme.punct.inj (List.cons.inj h).1)).elim
  | nextObject first others ih1 ih2 =>
    cases q with
    | noObjects =>
      obtain ⟨mark, more, rfl, hmark⟩ := hrest'
      exact (hmark (Lexeme.punct.inj (List.cons.inj h).1).symm).elim
    | nextObject first' others' =>
      simp only [lexemes, List.cons_append, List.append_assoc] at h
      obtain ⟨rfl, hothers⟩ := ih1 first' (others.startsFree (hrest.startsFree (by simp)))
        (others'.startsFree (hrest'.startsFree (by simp))) (List.cons.inj h).2
      obtain ⟨rfl, hbehind⟩ := ih2 others' hrest hrest' hothers
      exact ⟨rfl, hbehind⟩
  | predicates verb first others more ih1 ih2 ih3 =>
    cases q with
    | predicates verb' first' others' more' =>
      simp only [lexemes, List.cons_append, List.append_assoc] at h
      obtain ⟨hverb, hfirst⟩ := List.cons.inj h
      obtain rfl := Verb.lexeme_inj hverb
      have hobjects := Follows.objects_of_more more hrest
      have hobjects' := Follows.objects_of_more more' hrest'
      obtain ⟨rfl, hothers⟩ := ih1 first' (others.startsFree (hobjects.startsFree (by simp)))
        (others'.startsFree (hobjects'.startsFree (by simp))) hfirst
      obtain ⟨rfl, hmore⟩ := ih2 others' hobjects hobjects' hothers
      obtain ⟨rfl, hbehind⟩ := ih3 more' hrest hrest' hmore
      exact ⟨rfl, hbehind⟩
  | noMore =>
    cases q with
    | noMore => exact ⟨rfl, h⟩
    | semicolon _ | nextPredicates _ =>
      obtain ⟨mark, more, rfl, hmark⟩ := hrest
      obtain rfl : mark = .semicolon := Lexeme.punct.inj (List.cons.inj h).1
      simp at hmark
  | semicolon others ih =>
    cases q with
    | noMore =>
      obtain ⟨mark, more, rfl, hmark⟩ := hrest'
      obtain rfl : .semicolon = mark := Lexeme.punct.inj (List.cons.inj h).1
      simp at hmark
    | semicolon others' =>
      obtain ⟨rfl, hbehind⟩ := ih others' hrest hrest' (List.cons.inj h).2
      exact ⟨rfl, hbehind⟩
    | nextPredicates content =>
      obtain ⟨mark, after, hothers⟩ := others.more_begins hrest
      have hcontent : content.lexemes ++ rest' = .punct mark :: after :=
        (List.cons.inj h).2.symm.trans hothers
      exact (content.predicates_ne_punct hcontent).elim
  | nextPredicates content ih =>
    cases q with
    | noMore =>
      obtain ⟨mark, more, rfl, hmark⟩ := hrest'
      obtain rfl : .semicolon = mark := Lexeme.punct.inj (List.cons.inj h).1
      simp at hmark
    | semicolon others =>
      obtain ⟨mark, after, hothers⟩ := others.more_begins hrest'
      have hcontent : content.lexemes ++ rest = .punct mark :: after :=
        (List.cons.inj h).2.trans hothers
      exact (content.predicates_ne_punct hcontent).elim
    | nextPredicates content' =>
      obtain ⟨rfl, hbehind⟩ := ih content' hrest hrest' (List.cons.inj h).2
      exact ⟨rfl, hbehind⟩

theorem Statement.eq_of_lexemes (p q : Statement Unit)
    (h : p.lexemes ++ rest = q.lexemes ++ rest') : p = q ∧ rest = rest' := by
  -- the predicates of a subject are not empty, so that no other statement is a bracket with a dot
  have hlone : ∀ {subject : Phrase Unit .resource} {content : Phrase Unit .predicates} {node : Unit}
      {content' : Phrase Unit .predicates} {rest rest' : List Lexeme},
      (triples subject content).lexemes ++ rest ≠ (lone node content').lexemes ++ rest' := by
    intro subject content node content' rest rest' h
    simp only [lexemes, List.append_assoc, List.singleton_append] at h
    obtain ⟨-, hdot⟩ := subject.eq_of_lexemes (.bracket node content') trivial trivial h
    exact content.predicates_ne_punct hdot
  have hdirective : ∀ {subject : Phrase Unit .resource} {content : Phrase Unit .predicates}
      {word : Directive} {rest rest' : List Lexeme},
      (triples subject content).lexemes ++ rest ≠ .directive word :: rest' := by
    intro subject content word rest rest' h
    simp only [lexemes, List.append_assoc] at h
    exact (Phrase.resource subject).object_ne rfl h
  cases p with
  | space word isDotted label iri =>
    cases q with
    | space word' isDotted' label' iri' =>
      simp only [lexemes, List.cons_append, List.nil_append, List.cons.injEq,
        Lexeme.directive.injEq, Directive.mk.injEq, Lexeme.name.injEq, Lexeme.iri.injEq] at h
      obtain ⟨⟨-, rfl, rfl⟩, ⟨rfl, -⟩, rfl, hend⟩ := h
      exact ⟨rfl, List.append_cancel_left hend⟩
    | triples subject content => exact (hdirective h.symm).elim
    | _ => simp [lexemes, Phrase.lexemes] at h
  | base word isDotted iri =>
    cases q with
    | base word' isDotted' iri' =>
      simp only [lexemes, List.cons_append, List.nil_append, List.cons.injEq,
        Lexeme.directive.injEq, Directive.mk.injEq, Lexeme.iri.injEq] at h
      obtain ⟨⟨-, rfl, rfl⟩, rfl, hend⟩ := h
      exact ⟨rfl, List.append_cancel_left hend⟩
    | triples subject content => exact (hdirective h.symm).elim
    | _ => simp [lexemes, Phrase.lexemes] at h
  | triples subject content =>
    cases q with
    | triples subject' content' =>
      simp only [lexemes, List.append_assoc, List.singleton_append] at h
      obtain ⟨rfl, hcontent⟩ := subject.eq_of_lexemes subject' trivial trivial h
      obtain ⟨rfl, hdot⟩ := content.eq_of_lexemes content' ⟨_, _, rfl, .inl rfl⟩
        ⟨_, _, rfl, .inl rfl⟩ hcontent
      exact ⟨rfl, (List.cons.inj hdot).2⟩
    | lone node content' => exact (hlone h).elim
    | _ => exact (hdirective h).elim
  | lone node content =>
    cases q with
    | triples subject content' => exact (hlone h.symm).elim
    | lone node' content' =>
      simp only [lexemes, List.append_assoc, List.singleton_append] at h
      obtain ⟨hsame, hdot⟩ := (Phrase.bracket node content).eq_of_lexemes (.bracket node' content')
        trivial trivial h
      obtain ⟨rfl, rfl⟩ := Phrase.bracket.inj hsame
      exact ⟨rfl, (List.cons.inj hdot).2⟩
    | _ => simp [lexemes, Phrase.lexemes] at h

/-- A document is the only one with its lexemes. -/
theorem Document.eq_of_lexemes (p q : Document Unit) (h : p.lexemes = q.lexemes) : p = q := by
  have hcons : ∀ (statement : Statement Unit) (document : Document Unit),
      lexemes (statement :: document) = statement.lexemes ++ lexemes document := fun _ _ =>
    List.flatMap_cons
  have hne : ∀ (statement : Statement Unit) (document : Document Unit),
      lexemes (statement :: document) ≠ [] := by
    intro statement document
    obtain ⟨l, more, hl, -⟩ := statement.startsFree (lexemes document)
    rw [hcons, hl]
    exact List.cons_ne_nil l more
  induction p generalizing q with
  | nil =>
    cases q with
    | nil => rfl
    | cons statement q => exact (hne statement q h.symm).elim
  | cons statement p ih =>
    cases q with
    | nil => exact (hne statement p h).elim
    | cons statement' q =>
      rw [hcons, hcons] at h
      obtain ⟨rfl, hrest⟩ := statement.eq_of_lexemes statement' h
      rw [ih q hrest]

end Rdf.Turtle

import Rdf.Proofs.Turtle.Openings
import Rdf.Proofs.Turtle.Statements

/-!
Documents that are nested too deep.

A document that is not nested too deep has room for each bracket and parenthesis where it opens.
One that is nested too deep is refused at the first that there is no room for, since with labels in
place of those it is a document that the reader reads.
-/

namespace Rdf.Turtle

open Refusal

variable {ν : Type} {l : Lexeme} {part : Part} {room : Nat}

/-! ### Phrases with room for them -/

/-- A label that stands where something is nested too deep. -/
def leaf : Phrase ν .resource := .blank "x"

namespace Phrase

/-- The phrase with a label in place of whatever there is no room for. -/
def prune : {part : Part} → Phrase ν part → Nat → Phrase ν part
  | _, emptyBracket _, 0 | _, bracket _ _, 0 | _, collection _, 0 => leaf
  | _, bracket node content, room + 1 => .bracket node (content.prune room)
  | _, collection items, room + 1 => .collection (items.prune room)
  | _, resource node, room => .resource (node.prune room)
  | _, item cell first rest, room => .item cell (first.prune room) (rest.prune room)
  | _, nextObject first rest, room => .nextObject (first.prune room) (rest.prune room)
  | _, predicates verb first rest more, room =>
    .predicates verb (first.prune room) (rest.prune room) (more.prune room)
  | _, semicolon rest, room => .semicolon (rest.prune room)
  | _, nextPredicates content, room => .nextPredicates (content.prune room)
  | _, emptyBracket node, _ + 1 => .emptyBracket node
  | _, name n, _ => .name n
  | _, blank label, _ => .blank label
  | _, constant literal, _ => .constant literal
  | _, noItems, _ => .noItems
  | _, noObjects, _ => .noObjects
  | _, noMore, _ => .noMore

theorem depth_prune (phrase : Phrase ν part) (room : Nat) : (phrase.prune room).depth ≤ room := by
  induction phrase generalizing room with
  | emptyBracket node => cases room <;> simp [prune, leaf, depth]
  | bracket node content ih | collection content ih =>
    cases room with
    | zero => exact Nat.le_refl 0
    | succ room => exact Nat.succ_le_succ (ih room)
  | item cell first rest ih1 ih2 | nextObject first rest ih1 ih2 =>
    exact Nat.max_le.2 ⟨ih1 room, ih2 room⟩
  | predicates verb first rest more ih1 ih2 ih3 =>
    exact Nat.max_le.2 ⟨Nat.max_le.2 ⟨ih1 room, ih2 room⟩, ih3 room⟩
  | resource node ih | semicolon node ih | nextPredicates node ih => exact ih room
  | _ => exact Nat.zero_le room

theorem names_prune (phrase : Phrase ν part) (room : Nat) :
    (phrase.prune room).names ⊆ phrase.names := by
  induction phrase generalizing room with
  | emptyBracket node => cases room <;> exact List.Subset.refl _
  | bracket node content ih | collection content ih =>
    cases room with
    | zero => exact List.nil_subset _
    | succ room => exact ih room
  | item cell first rest ih1 ih2 | nextObject first rest ih1 ih2 =>
    exact List.append_subset.2 ⟨List.Subset.trans (ih1 room) (List.subset_append_left _ _),
      List.Subset.trans (ih2 room) (List.subset_append_right _ _)⟩
  | predicates verb first rest more ih1 ih2 ih3 =>
    have hsub : verb.names ++ (first.prune room).names ++ (rest.prune room).names ++
        (more.prune room).names ⊆ verb.names ++ first.names ++ rest.names ++ more.names := by
      intro n hn
      simp only [List.mem_append] at hn ⊢
      exact hn.imp (Or.imp (Or.imp_right fun h => ih1 room h) fun h => ih2 room h)
        fun h => ih3 room h
    exact hsub
  | resource node ih | semicolon node ih | nextPredicates node ih => exact ih room
  | _ => exact List.Subset.refl _

/-- What is left of a phrase has proper lexemes, as the label that stands for the rest is. -/
theorem proper_prune {phrase : Phrase ν part} (h : ∀ l ∈ phrase.lexemes, l.Proper) (room : Nat) :
    ∀ l ∈ (phrase.prune room).lexemes, l.Proper := by
  have hleaf : ∀ l ∈ (leaf : Phrase ν .resource).lexemes, l.Proper := by
    simp [leaf, lexemes, Lexeme.Proper]
  induction phrase generalizing room with
  | emptyBracket node =>
    cases room with
    | zero => exact hleaf
    | succ room => exact h
  | bracket node content ih | collection content ih =>
    cases room with
    | zero => exact hleaf
    | succ room =>
      simp only [prune, lexemes, List.cons_append, List.forall_mem_cons,
        List.forall_mem_append] at h ⊢
      exact ⟨h.1, ih h.2.1 room, h.2.2⟩
  | item cell first rest ih1 ih2 =>
    obtain ⟨h1, h2⟩ := List.forall_mem_append.1 h
    exact List.forall_mem_append.2 ⟨ih1 h1 room, ih2 h2 room⟩
  | nextObject first rest ih1 ih2 =>
    simp only [prune, lexemes, List.cons_append, List.forall_mem_cons,
      List.forall_mem_append] at h ⊢
    exact ⟨h.1, ih1 h.2.1 room, ih2 h.2.2 room⟩
  | predicates verb first rest more ih1 ih2 ih3 =>
    simp only [prune, lexemes, List.cons_append, List.forall_mem_cons,
      List.forall_mem_append] at h ⊢
    exact ⟨h.1, ⟨ih1 h.2.1.1 room, ih2 h.2.1.2 room⟩, ih3 h.2.2 room⟩
  | semicolon node ih | nextPredicates node ih =>
    obtain ⟨hmark, hrest⟩ := List.forall_mem_cons.1 h
    exact List.forall_mem_cons.2 ⟨hmark, ih hrest room⟩
  | resource node ih => exact ih h room
  | _ => exact h

theorem eof_not_mem (phrase : Phrase ν part) : .eof ∉ phrase.lexemes := by
  have hname : ∀ n : Name, n.lexeme ≠ .eof := fun n => by cases n <;> simp [Name.lexeme]
  induction phrase with
  | name n => simpa [lexemes] using (hname n).symm
  | constant literal =>
    cases literal with
    | string delimiter value suffix =>
      cases suffix <;> simp [lexemes, Constant.lexemes, Suffix.lexemes, (hname _).symm]
    | _ => simp [lexemes, Constant.lexemes]
  | predicates verb first rest more ih1 ih2 ih3 =>
    have hverb : verb.lexeme ≠ .eof := by
      cases verb with
      | a => simp [Verb.lexeme]
      | name n => exact hname n
    simp [lexemes, hverb.symm, ih1, ih2, ih3]
  | _ => simp [lexemes, *]

end Phrase

/-! ### Where the room ends -/

/-- Whatever a row of lexemes opens, there is room for it. -/
def Fits (room : Nat) (lexemes : List Lexeme) : Prop :=
  ∀ before opening after, lexemes = before ++ opening :: after → opening.opens = true →
    before.countP Lexeme.opens < before.countP Lexeme.closes + room

/-- A row of lexemes opens something that there is no room for, where a row that is the same before
has a label. -/
def Overflows (room : Nat) (lexemes pruned : List Lexeme) : Prop :=
  ∃ before opening after behind, lexemes = before ++ opening :: after ∧
    pruned = before ++ .blank "x" :: behind ∧ opening.opens = true ∧
    before.countP Lexeme.opens = before.countP Lexeme.closes + room

/-- Lexemes that are nested so deep, and what is left of them where there is so much room. -/
structure IsPruned (room depth : Nat) (lexemes pruned : List Lexeme) : Prop where
  balanced : Lexeme.Balanced lexemes
  fits : depth ≤ room → Fits room lexemes
  same : depth ≤ room → pruned = lexemes
  overflows : room < depth → Overflows room lexemes pruned

namespace Fits

variable {lexemes lexemes' : List Lexeme}

theorem of_none (h : ∀ l ∈ lexemes, l.opens = false) (room : Nat) : Fits room lexemes := by
  rintro before opening after rfl hopens
  rw [h opening (by simp)] at hopens
  cases hopens

theorem append (h : Fits room lexemes) (hbalanced : Lexeme.Balanced lexemes)
    (h' : Fits room lexemes') : Fits room (lexemes ++ lexemes') := by
  intro before opening after hsplit hopens
  obtain ⟨between, rfl, hrest⟩ | ⟨between, rfl, hrest⟩ := List.append_eq_append_iff.1 hsplit
  · have hlater := h' between opening after hrest hopens
    rw [Lexeme.Balanced] at hbalanced
    rw [List.countP_append, List.countP_append]
    omega
  · cases between with
    | nil =>
      have hlater := h' [] opening after hrest.symm hopens
      rw [List.append_nil, Lexeme.Balanced] at hbalanced
      simp only [List.countP_nil] at hlater
      omega
    | cons l between =>
      obtain ⟨rfl, -⟩ := List.cons.inj hrest
      exact h before opening between rfl hopens

theorem within (h : Fits room lexemes) (hl : l.opens = true) (hcloses : l.closes = false) :
    Fits (room + 1) (l :: lexemes) := by
  intro before opening after hsplit hopens
  cases before with
  | nil => simp
  | cons first before =>
    obtain ⟨rfl, hrest⟩ := List.cons.inj hsplit
    have hlater := h before opening after hrest hopens
    simp only [List.countP_cons, hl, hcloses, if_true, Bool.false_eq_true, if_false]
    omega

end Fits

namespace Overflows

variable {lexemes pruned : List Lexeme}

theorem append (h : Overflows room lexemes pruned) (more more' : List Lexeme) :
    Overflows room (lexemes ++ more) (pruned ++ more') := by
  obtain ⟨before, opening, after, behind, rfl, rfl, hopens, hcount⟩ := h
  exact ⟨before, opening, after ++ more, behind ++ more', by simp, by simp, hopens, hcount⟩

theorem prepend (h : Overflows room lexemes pruned) {first : List Lexeme}
    (hfirst : Lexeme.Balanced first) : Overflows room (first ++ lexemes) (first ++ pruned) := by
  obtain ⟨before, opening, after, behind, rfl, rfl, hopens, hcount⟩ := h
  refine ⟨first ++ before, opening, after, behind, by simp, by simp, hopens, ?_⟩
  rw [Lexeme.Balanced] at hfirst
  rw [List.countP_append, List.countP_append]
  omega

/-- What is open around the rows takes room. -/
theorem within (h : Overflows room lexemes pruned) (hl : l.opens = true)
    (hcloses : l.closes = false) : Overflows (room + 1) (l :: lexemes) (l :: pruned) := by
  obtain ⟨before, opening, after, behind, rfl, rfl, hopens, hcount⟩ := h
  refine ⟨l :: before, opening, after, behind, rfl, rfl, hopens, ?_⟩
  simp only [List.countP_cons, hl, hcloses, hcount, if_true, Bool.false_eq_true, if_false]
  omega

end Overflows

namespace IsPruned

variable {depth depth' : Nat} {lexemes lexemes' pruned pruned' : List Lexeme}

theorem flat (h : ∀ l ∈ lexemes, l.isFlat = true) : IsPruned room 0 lexemes lexemes :=
  ⟨.of_flat h, fun _ => .of_none (fun l hl => (Lexeme.isFlat_iff.1 (h l hl)).1) room,
    fun _ => rfl, fun hlt => absurd hlt (Nat.not_lt_zero room)⟩

theorem append (h : IsPruned room depth lexemes pruned)
    (h' : IsPruned room depth' lexemes' pruned') :
    IsPruned room (max depth depth') (lexemes ++ lexemes') (pruned ++ pruned') := by
  refine ⟨h.balanced.append h'.balanced, fun hfits => ?_, fun hfits => ?_, fun hdeep => ?_⟩
  · obtain ⟨hfirst, hsecond⟩ := Nat.max_le.1 hfits
    exact (h.fits hfirst).append h.balanced (h'.fits hsecond)
  · obtain ⟨hfirst, hsecond⟩ := Nat.max_le.1 hfits
    rw [h.same hfirst, h'.same hsecond]
  · obtain hfirst | hfirst := Nat.lt_or_ge room depth
    · exact (h.overflows hfirst).append _ _
    · rw [h.same hfirst]
      have hsecond : room < depth' := by omega
      exact (h'.overflows hsecond).prepend h.balanced

theorem prepend (h : IsPruned room depth lexemes pruned) {first : List Lexeme}
    (hfirst : ∀ l ∈ first, l.isFlat = true) :
    IsPruned room depth (first ++ lexemes) (first ++ pruned) := by
  have hboth := (flat hfirst : IsPruned room 0 first first).append h
  rwa [Nat.zero_max] at hboth

theorem concat (h : IsPruned room depth lexemes pruned) {last : List Lexeme}
    (hlast : ∀ l ∈ last, l.isFlat = true) :
    IsPruned room depth (lexemes ++ last) (pruned ++ last) := by
  have hboth := h.append (flat hlast : IsPruned room 0 last last)
  rwa [Nat.max_zero] at hboth

theorem balanced_within {opening closing : Lexeme} (h : Lexeme.Balanced lexemes)
    (hopening : opening.opens = true ∧ opening.closes = false)
    (hclosing : closing.opens = false ∧ closing.closes = true) :
    Lexeme.Balanced (opening :: lexemes ++ [closing]) := by
  rw [Lexeme.Balanced] at h
  simp [Lexeme.Balanced, hopening, hclosing, h]

/-- Around rows that have been pruned there is room for one bracket or parenthesis more. -/
theorem within {opening closing : Lexeme} (h : IsPruned room depth lexemes pruned)
    (hopening : opening.opens = true ∧ opening.closes = false)
    (hclosing : closing.opens = false ∧ closing.closes = true) :
    IsPruned (room + 1) (depth + 1) (opening :: lexemes ++ [closing])
      (opening :: pruned ++ [closing]) := by
  refine ⟨balanced_within h.balanced hopening hclosing, fun hfits => ?_, fun hfits => ?_,
    fun hdeep => ?_⟩
  · have hlast : Fits room [closing] := .of_none (List.forall_mem_singleton.2 hclosing.1) room
    exact ((h.fits (Nat.le_of_succ_le_succ hfits)).append h.balanced hlast).within hopening.1
      hopening.2
  · rw [h.same (Nat.le_of_succ_le_succ hfits)]
  · exact ((h.overflows (Nat.lt_of_succ_lt_succ hdeep)).within hopening.1 hopening.2).append _ _

/-- Where there is no room, a label stands for what would be opened. -/
theorem cut {opening : Lexeme} (h : Lexeme.Balanced (opening :: lexemes))
    (hopening : opening.opens = true) :
    IsPruned 0 (depth + 1) (opening :: lexemes) [.blank "x"] :=
  ⟨h, fun hfits => absurd hfits (Nat.not_succ_le_zero depth),
    fun hfits => absurd hfits (Nat.not_succ_le_zero depth), fun _ =>
    ⟨[], opening, lexemes, [], rfl, rfl, hopening, rfl⟩⟩

end IsPruned

theorem Name.isFlat_lexeme (n : Name) : n.lexeme.isFlat = true := by cases n <;> rfl

theorem Verb.isFlat_lexeme (verb : Verb) : verb.lexeme.isFlat = true := by
  cases verb with
  | a => rfl
  | name n => exact n.isFlat_lexeme

theorem Constant.isFlat_lexemes (literal : Constant) : ∀ l ∈ literal.lexemes, l.isFlat = true := by
  cases literal with
  | string delimiter value suffix =>
    refine List.forall_mem_cons.2 ⟨rfl, ?_⟩
    cases suffix with
    | nothing => nofun
    | language tag => exact List.forall_mem_singleton.2 rfl
    | datatype n =>
      exact List.forall_mem_cons.2 ⟨rfl, List.forall_mem_singleton.2 n.isFlat_lexeme⟩
  | number kind text | boolean text => exact List.forall_mem_singleton.2 rfl

/-- A phrase fits where it is not nested too deep, and else overflows where it has been pruned. -/
theorem Phrase.isPruned (phrase : Phrase ν part) (room : Nat) :
    IsPruned room phrase.depth phrase.lexemes (phrase.prune room).lexemes := by
  have hone : ∀ {l : Lexeme}, l.isFlat = true → ∀ l' ∈ [l], l'.isFlat = true :=
    fun hl => List.forall_mem_singleton.2 hl
  induction phrase generalizing room with
  | name n => exact .flat (hone n.isFlat_lexeme)
  | constant literal => exact .flat literal.isFlat_lexemes
  | emptyBracket node =>
    cases room with
    | zero => exact .cut rfl rfl
    | succ room =>
      have hnothing : IsPruned room 0 [] [] := .flat nofun
      exact hnothing.within ⟨rfl, rfl⟩ ⟨rfl, rfl⟩
  | bracket node content ih | collection content ih =>
    cases room with
    | zero => exact .cut (IsPruned.balanced_within (ih 0).balanced ⟨rfl, rfl⟩ ⟨rfl, rfl⟩) rfl
    | succ room => exact (ih room).within ⟨rfl, rfl⟩ ⟨rfl, rfl⟩
  | item cell first rest ih1 ih2 => exact (ih1 room).append (ih2 room)
  | nextObject first rest ih1 ih2 => exact ((ih1 room).append (ih2 room)).prepend (hone rfl)
  | predicates verb first rest more ih1 ih2 ih3 =>
    exact (((ih1 room).append (ih2 room)).append (ih3 room)).prepend (hone verb.isFlat_lexeme)
  | semicolon node ih | nextPredicates node ih => exact (ih room).prepend (hone rfl)
  | resource node ih => exact ih room
  | blank label => exact .flat (hone rfl)
  | noItems | noObjects | noMore => exact .flat nofun

/-! ### Statements and documents with room for them -/

/-- The statement where there is room for brackets and parentheses in one around it. -/
def Statement.prune (room : Nat) : Statement ν → Statement ν
  | triples subject content => .triples (subject.prune (room + 1)) (content.prune (room + 1))
  | lone node content => .lone node (content.prune room)
  | space word isDotted label iri => .space word isDotted label iri
  | base word isDotted iri => .base word isDotted iri

namespace Statement

theorem depth_prune (statement : Statement ν) (room : Nat) :
    (statement.prune room).depth ≤ room + 1 := by
  cases statement with
  | triples subject content =>
    exact Nat.max_le.2 ⟨subject.depth_prune (room + 1), content.depth_prune (room + 1)⟩
  | lone node content => exact Nat.succ_le_succ (content.depth_prune room)
  | space _ _ _ _ | base _ _ _ => exact Nat.zero_le _

theorem names_prune (statement : Statement ν) (room : Nat) :
    (statement.prune room).names ⊆ statement.names := by
  cases statement with
  | triples subject content =>
    exact List.append_subset.2
      ⟨List.Subset.trans (subject.names_prune (room + 1)) (List.subset_append_left _ _),
        List.Subset.trans (content.names_prune (room + 1)) (List.subset_append_right _ _)⟩
  | lone node content => exact content.names_prune room
  | space _ _ _ _ | base _ _ _ => exact List.Subset.refl _

theorem scopeAfter_prune (statement : Statement ν) (room : Nat) (scope : Scope) :
    (statement.prune room).scopeAfter scope = statement.scopeAfter scope := by
  cases statement <;> rfl

theorem proper_prune {statement : Statement ν} (h : ∀ l ∈ statement.lexemes, l.Proper)
    (room : Nat) : ∀ l ∈ (statement.prune room).lexemes, l.Proper := by
  cases statement with
  | triples subject content =>
    simp only [prune, lexemes, List.forall_mem_append] at h ⊢
    exact ⟨⟨Phrase.proper_prune h.1.1 _, Phrase.proper_prune h.1.2 _⟩, h.2⟩
  | lone node content =>
    simp only [prune, lexemes, Phrase.lexemes, List.cons_append, List.forall_mem_cons,
      List.forall_mem_append] at h ⊢
    exact ⟨h.1, ⟨Phrase.proper_prune h.2.1.1 room, h.2.1.2⟩, h.2.2⟩
  | space _ _ _ _ | base _ _ _ => exact h

theorem eof_not_mem (statement : Statement ν) : .eof ∉ statement.lexemes := by
  cases statement with
  | triples subject content => simp [lexemes, subject.eof_not_mem, content.eof_not_mem]
  | lone node content => simp [lexemes, (Phrase.bracket node content).eof_not_mem]
  | space word isDotted label iri | base word isDotted iri =>
    cases isDotted <;> simp [lexemes, directiveEnd]

theorem isPruned (statement : Statement ν) (room : Nat) :
    IsPruned (room + 1) statement.depth statement.lexemes (statement.prune room).lexemes := by
  have hdot : ∀ l ∈ [Lexeme.punct .dot], l.isFlat = true := List.forall_mem_singleton.2 rfl
  cases statement with
  | triples subject content =>
    exact ((subject.isPruned _).append (content.isPruned _)).concat hdot
  | lone node content => exact ((content.isPruned room).within ⟨rfl, rfl⟩ ⟨rfl, rfl⟩).concat hdot
  | space word isDotted label iri | base word isDotted iri =>
    refine .flat ?_
    cases isDotted <;> simp [lexemes, directiveEnd, Lexeme.isFlat, Lexeme.opens, Lexeme.closes]

end Statement

namespace Document

/-- The document where there is room for brackets and parentheses in one around it. -/
def prune (room : Nat) (document : Document ν) : Document ν := document.map (·.prune room)

variable {document : Document ν}

theorem inScope_prune {scope : Scope} (h : document.InScope scope) (room : Nat) :
    (document.prune room).InScope scope := by
  induction document generalizing scope with
  | nil => trivial
  | cons statement document ih =>
    refine ⟨fun n hn => h.1 n (statement.names_prune room hn), ?_⟩
    rw [statement.scopeAfter_prune]
    exact ih h.2

theorem proper_prune (h : ∀ l ∈ document.lexemes, l.Proper) (room : Nat) :
    ∀ l ∈ (document.prune room).lexemes, l.Proper := by
  intro l hl
  obtain ⟨pruned, hpruned, hl⟩ := List.mem_flatMap.1 hl
  obtain ⟨statement, hstatement, rfl⟩ := List.mem_map.1 hpruned
  exact Statement.proper_prune (fun l hl => h l (List.mem_flatMap.2 ⟨statement, hstatement, hl⟩))
    room l hl

theorem eof_not_mem (document : Document ν) : .eof ∉ document.lexemes := by
  intro hmem
  obtain ⟨statement, -, hstatement⟩ := List.mem_flatMap.1 hmem
  exact statement.eof_not_mem hstatement

theorem overflows (h : ∃ statement ∈ document, room + 1 < statement.depth) :
    Overflows (room + 1) document.lexemes (document.prune room).lexemes := by
  induction document with
  | nil => simp at h
  | cons statement document ih =>
    have hpruned := statement.isPruned room
    rw [lexemes, prune, List.map_cons, List.flatMap_cons, lexemes, List.flatMap_cons]
    obtain hfits | hdeep := Nat.lt_or_ge (room + 1) statement.depth
    · exact (hpruned.overflows hfits).append _ _
    · rw [hpruned.same hdeep]
      obtain ⟨other, hmem, hother⟩ := h
      obtain rfl | hrest := List.mem_cons.1 hmem
      · exact absurd hother (Nat.not_lt.2 hdeep)
      · exact (ih ⟨other, hrest, hother⟩).prepend hpruned.balanced

theorem fits (h : ∀ statement ∈ document, statement.depth ≤ room + 1) :
    Fits (room + 1) document.lexemes := by
  induction document with
  | nil => exact .of_none (List.forall_mem_nil _) _
  | cons statement document ih =>
    obtain ⟨hfirst, hrest⟩ := List.forall_mem_cons.1 h
    have hpruned := statement.isPruned room
    rw [lexemes, List.flatMap_cons]
    exact (hpruned.fits hfirst).append hpruned.balanced (ih hrest)

theorem balanced (document : Document ν) : Lexeme.Balanced document.lexemes := by
  induction document with
  | nil => rfl
  | cons statement document ih =>
    rw [lexemes, List.flatMap_cons]
    exact (statement.isPruned 0).balanced.append ih

/-- A document that is not nested too deep is not refused for that, whatever else it may be refused
for. -/
theorem unhindered (h : document.IsShallow) (base : Option Iri) :
    State.Unhindered
      (machine.runLexemes { graph := { base } } (document.lexemes ++ [.eof])) := by
  intro hrefused
  obtain ⟨before, opening, after, s, hlexemes, hbefore, hstep⟩ :=
    machine.refused_of_runLexemes hrefused
  obtain ⟨hopens, hfull⟩ := State.full_of_step hstep
  have hlive : s.expecting ≠ .nothing := fun he =>
    nomatch (State.step_nothing he opening).symm.trans hstep
  have hwaiting := State.waiting_of_run hbefore hlive
  have hend : Fits maxNesting [Lexeme.eof] := .of_none (List.forall_mem_singleton.2 rfl) _
  have hroom : before.countP Lexeme.opens < before.countP Lexeme.closes + maxNesting :=
    (fits h).append document.balanced hend before opening after hlexemes hopens
  simp only [List.length_nil] at hwaiting
  omega

/-- A document that is nested too deep is refused for that. -/
theorem refuses_deep {base : Option Iri} (hscope : document.InScope ⟨base, []⟩)
    (hproper : ∀ l ∈ document.lexemes, l.Proper)
    (hdeep : ∃ statement ∈ document, maxNesting < statement.depth) (more : List Lexeme) :
    machine.runLexemes { graph := { base } } (document.lexemes ++ more) = refuse .nesting := by
  let start : State := { graph := { base } }
  let room := maxNesting - 1
  obtain ⟨before, opening, after, behind, hlexemes, hpruned, hopens, hcount⟩ :=
    @overflows ν room document hdeep
  have hshallow : (document.prune room).IsShallow := by
    intro pruned hmem
    obtain ⟨statement, -, rfl⟩ := List.mem_map.1 hmem
    exact statement.depth_prune room
  obtain ⟨_, _, hrun, -⟩ := (document.prune room).runs base (inScope_prune hscope room)
    (proper_prune hproper room) hshallow
  rw [hpruned, List.append_assoc, List.cons_append] at hrun
  obtain ⟨s, hbefore, hlater⟩ := machine.between_of_runLexemes hrun
  obtain ⟨next, hlabel, -⟩ := State.step_of_run hlater
  have heof : .eof ∉ before := by
    have hnot := eof_not_mem document
    rw [hlexemes] at hnot
    exact fun hmem => hnot (List.mem_append_left _ hmem)
  have hstart : start.expecting ≠ .nothing := by simp [start]
  have hlive := State.live_of_run hbefore heof hstart
  have hwaiting := State.waiting_of_run hbefore hlive
  have hfull : maxNesting ≤ s.waiting.length := by
    have hroom : room + 1 = maxNesting := rfl
    simp only [List.length_nil] at hwaiting
    omega
  have hrefused : machine.step s opening = refuse .nesting :=
    State.step_nesting hlabel hlive hfull hopens
  rw [hlexemes, List.append_assoc, List.cons_append, machine.runLexemes_append_of_ok hbefore,
    Machine.runLexemes, hrefused]
  rfl

end Document

end Rdf.Turtle

import Rdf.Proofs.Turtle.Acceptance
import Rdf.Proofs.Turtle.Overflow
import Rdf.Proofs.Turtle.Parallel

/-!
The reader of Turtle refuses the first token that cannot stand where it stands.

A state is `WellNested` when items are expected inside of parentheses only, and the reader goes
through no other states. Behind such a state a few lexemes end whatever has been begun, so that what
the reader has taken is the beginning of a document. No document goes on with the token that the
grammar refuses.
-/

namespace Rdf.Turtle

open Refusal

variable {s s1 : State} {born : List (Origin × String)} {l : Lexeme} {target : Target}
  {term : Term} {read rest : List Lexeme} {scope : Scope} {waiting : List Target}

/-! ### Whatever is read is proper -/

/-- No birth gives an empty id, and none is for an empty label. -/
def Unempty (born : List (Origin × String)) : Prop :=
  ∀ birth ∈ born, birth.2 ≠ "" ∧ birth.1.label? ≠ some ""

theorem Unempty.append {more : List (Origin × String)} (h : Unempty born) (hmore : Unempty more) :
    Unempty (born ++ more) := List.forall_mem_append.2 ⟨h, hmore⟩

theorem mint_ne_empty (g : Graph) : g.mint.1 ≠ "" := by
  intro he
  have hlabel : isBlankLabel g.mint.1.toList = true := Graph.isBlankLabel_mintedLabel _
  rw [he] at hlabel
  cases hlabel

theorem mintMany_ne_empty (g : Graph) (count : Nat) : ∀ id ∈ (g.mintMany count).1, id ≠ "" := by
  induction count generalizing g with
  | zero => nofun
  | succ count ih => exact List.forall_mem_cons.2 ⟨mint_ne_empty g, ih g.mint.2⟩

theorem State.unempty_born (s : State) (hl : l.Proper) : Unempty (s.born l) := by
  unfold State.born
  split
  · nofun
  · exact List.forall_mem_singleton.2 ⟨mint_ne_empty s.graph, nofun⟩
  · intro birth hbirth
    obtain ⟨id, hid, rfl⟩ := List.mem_map.1 hbirth
    exact ⟨mintMany_ne_empty _ _ id hid, nofun⟩
  · next label _ =>
    have hlabel : some label ≠ some "" := fun he => hl (Option.some.inj he)
    split
    · nofun
    · split
      · exact List.forall_mem_singleton.2 ⟨mint_ne_empty s.graph, hlabel⟩
      · exact List.forall_mem_singleton.2 ⟨hl, hlabel⟩
  · nofun

theorem State.Stems.no_empty_label (h : s.Stems born) (hborn : Unempty born)
    (given : Term × State) : s.nodeOfLabel "" ≠ .ok given := by
  have hlookup : s.labels.lookup "" = none := by
    cases hl : s.labels.lookup "" with
    | none => rfl
    | some node =>
      obtain ⟨origin, id, hmem, hlabel, -⟩ := h.birth hl
      exact absurd hlabel (hborn _ hmem).2
  have hseen : s.graph.hasSeen "" = false := by
    have hnot : "" ∉ s.graph.seen := by
      rw [h.seen]
      intro hmem
      obtain ⟨birth, hbirth, he⟩ := List.mem_map.1 hmem
      exact (hborn birth hbirth).1 he
    simpa [Graph.hasSeen] using hnot
  simp [State.nodeOfLabel, hlookup, hseen, Graph.reserve, Term.ofBlankId, checked, bind,
    Except.bind]

theorem State.advance_tag (hlive : s.expecting ≠ .nothing) (tag : String) :
    s.advance (.languageTag tag) ≠ .ok s1 := by
  cases he : s.expecting with
  | nothing => exact absurd he hlive
  | term target =>
    cases target <;> simp [advance, he, beginTerm, iri?, refuse]
  | _ =>
    cases hw : s.waiting <;>
      simp [advance, he, hw, predicateOr, predicate?, iri?, endSubject, refuse]

/-- A live state takes neither an empty label nor an empty tag. -/
theorem State.Recorded.proper_of_step (h : s.Recorded born) (hborn : Unempty born)
    (hlive : s.expecting ≠ .nothing) (hs : s.step l = .ok s1) : l.Proper := by
  cases l with
  | blank label =>
    rintro rfl
    have hsettled := mt (State.settled_ended hs).1 hlive
    cases (State.moves_of_step hs).2 with
    | ended he => exact hsettled he
    | turn hl | deliver hl => cases hl
    | label ht hnode hd => exact (h.settled hs).stems.no_empty_label hborn _ hnode
  | languageTag tag =>
    rintro rfl
    cases he : s.expecting with
    | suffix value target =>
      simp [State.step, he, State.deliverLiteral, Literal.make, checked] at hs
    | _ =>
      rw [State.step_of_expecting (by simp [he])] at hs
      exact State.advance_tag hlive "" hs
  | _ => trivial

theorem State.Recorded.proper_of_run (h : s.Recorded born) (hborn : Unempty born)
    (hlive : s.expecting ≠ .nothing) (hread : .eof ∉ read)
    (hrun : machine.runLexemes s read = .ok s1) : ∀ l ∈ read, l.Proper := by
  induction read generalizing s born with
  | nil => nofun
  | cons l read ih =>
    obtain ⟨hl, hread⟩ := not_or.1 (mt List.mem_cons.2 hread)
    obtain ⟨next, hs, hrest⟩ := State.step_of_run hrun
    have hproper := h.proper_of_step hborn hlive hs
    have hlater := ih (h.step hs) (hborn.append ((s.settled l).unempty_born hproper))
      (State.live_of_step hs (Ne.symm hl) hlive) hread hrest
    exact List.forall_mem_cons.2 ⟨hproper, hlater⟩

/-! ### Items stand inside of parentheses -/

/-- The target may stand inside of the targets that wait: an item needs a parenthesis. -/
def Target.Within (waiting : List Target) : Target → Prop
  | .item _ => waiting ≠ []
  | _ => True

/-- Each target that waits stands inside of the ones behind it. -/
def Nested : List Target → Prop
  | [] => True
  | target :: waiting => target.Within waiting ∧ Nested waiting

structure State.WellNested (s : State) : Prop where
  expecting : ∀ target, s.expecting.target? = some target → target.Within s.waiting
  waiting : Nested s.waiting

theorem wellNested_start (base : Option Iri) : State.WellNested { graph := { base } } :=
  ⟨fun _ ht => Option.some.inj ht ▸ trivial, trivial⟩

/-- Where no target is expected, nothing more than the waiting ones has to be nested. -/
theorem State.WellNested.of_waiting (h : s.expecting.target? = none) (hw : Nested s.waiting) :
    s.WellNested := ⟨fun _ ht => by simp [h] at ht, hw⟩

theorem Delivers.wellNested (h : Delivers s term target s1) (ht : target.Within s.waiting)
    (hw : Nested s.waiting) : s1.WellNested := by
  cases h with
  | subject mayEnd => cases mayEnd <;> exact .of_waiting rfl hw
  | object subject predicate => exact .of_waiting rfl hw
  | item items => exact ⟨fun _ ho => Option.some.inj ho ▸ ht, hw⟩

namespace State.WellNested

/-- A move keeps what is well nested. -/
theorem moves (h : s.WellNested) (hm : Moves s l s1) : s1.WellNested := by
  cases hm with
  | ended he => exact h
  | turn hl hseen hids htarget hend =>
    refine ⟨fun other ho => ?_, h.waiting⟩
    cases other with
    | item items => exact h.expecting (.item items) (htarget items ho)
    | subject | object subject predicate => trivial
  | deliver hl ht hterm hd => exact hd.wellNested (h.expecting _ ht) h.waiting
  | @label label target node s0 _ ht hnode hd =>
    have hsame := waiting_of_nodeOfLabel hnode
    exact hd.wellNested (hsame ▸ h.expecting target (ht ▸ rfl)) (hsame ▸ h.waiting)
  | openBracket ht hroom => exact .of_waiting rfl ⟨h.expecting _ (ht ▸ rfl), h.waiting⟩
  | openParen ht hroom =>
    exact ⟨fun _ ho => Option.some.inj ho ▸ List.cons_ne_nil _ _, h.expecting _ (ht ▸ rfl),
      h.waiting⟩
  | closeBracket hnode hw hd =>
    obtain ⟨ht, hrest⟩ : Nested (_ :: _) := hw ▸ h.waiting
    exact hd.wellNested ht hrest
  | closeParen ht hw hd =>
    obtain ⟨ht, hrest⟩ : Nested (_ :: _) := hw ▸ h.waiting
    exact hd.wellNested ht hrest

theorem step (h : s.WellNested) (hs : s.step l = .ok s1) : s1.WellNested := by
  obtain ⟨hsettled, hm⟩ := State.moves_of_step hs
  refine WellNested.moves ?_ hm
  obtain hsame | ⟨literal, value, target, he, hd⟩ := hsettled
  · rwa [hsame]
  · exact hd.wellNested (h.expecting target (he ▸ rfl)) h.waiting

theorem run (h : s.WellNested) (hrun : machine.runLexemes s read = .ok s1) : s1.WellNested := by
  induction read generalizing s with
  | nil => exact Except.ok.inj hrun ▸ h
  | cons l read ih =>
    obtain ⟨next, hs, hrest⟩ := State.step_of_run hrun
    exact ih (h.step hs) hrest

end State.WellNested

/-! ### Completing what has been begun -/

/-- Lexemes that end whatever a document has begun. -/
def fillers : List Lexeme :=
  [.a, .iri "urn:x", .name "" "", .punct .dot, .punct .closeBracket, .punct .closeParen]

/-- Something that can be read in any place for an object. -/
def filler : Phrase Unit .object := .resource (.name (.iri "urn:x"))

/-- Predicates of any subject. -/
def fillerPredicates : Phrase Unit .predicates := .predicates .a filler .noObjects .noMore

theorem filler_inScope (scope : Scope) : (Name.iri "urn:x").InScope scope := .inl (by decide)

/-- A phrase that is flat and names nothing fits anywhere. -/
theorem Phrase.Fits.of_plain {part : Part} {p : Phrase Unit part} {depth : Nat}
    (hnames : p.names = []) (hdepth : p.depth = 0) : p.Fits scope depth :=
  ⟨hnames ▸ List.forall_mem_nil _, hdepth ▸ Nat.zero_le _⟩

theorem fits_filler (scope : Scope) (depth : Nat) : filler.Fits scope depth :=
  ⟨List.forall_mem_singleton.2 (filler_inScope scope), Nat.zero_le _⟩

theorem fits_fillerPredicates (scope : Scope) (depth : Nat) : fillerPredicates.Fits scope depth :=
  ⟨List.forall_mem_singleton.2 (filler_inScope scope), Nat.zero_le _⟩

theorem statements_nil (scope : Scope) : Statements scope [] :=
  ⟨[], rfl, trivial, List.forall_mem_nil _⟩

/-- Behind a term, whatever it is for can be ended where the row that it is in can be. -/
theorem exists_continues (scope : Scope) {closes : Ending → List Lexeme → Prop}
    (ht : target.Within waiting)
    (hends : ∃ ending rest, rest ⊆ fillers ∧ ending.EndsSubject ∧ closes ending rest)
    (hitems : waiting ≠ [] → ∃ rest, rest ⊆ fillers ∧ closes .collection rest) (mayEnd : Bool) :
    ∃ lexemes, lexemes ⊆ fillers ∧
      Continues scope waiting.length closes target mayEnd lexemes := by
  have hmark : ∀ ending : Ending, .punct ending.mark ∈ fillers := by
    intro ending
    cases ending <;> simp [Ending.mark, fillers]
  cases target with
  | subject =>
    obtain ⟨ending, rest, hrest, hends, hcloses⟩ := hends
    refine ⟨fillerPredicates.lexemes ++ .punct ending.mark :: rest, ?_, ending, rest,
      .inl ⟨fillerPredicates, fits_fillerPredicates _ _, rfl⟩, hends, hcloses⟩
    have hfirst : fillerPredicates.lexemes ⊆ fillers := by decide
    exact List.append_subset.2 ⟨hfirst, List.cons_subset.2 ⟨hmark ending, hrest⟩⟩
  | object subject predicate =>
    obtain ⟨ending, rest, hrest, hends, hcloses⟩ := hends
    exact ⟨.punct ending.mark :: rest, List.cons_subset.2 ⟨hmark ending, hrest⟩, .noObjects,
      .noMore, ending, rest, .of_plain rfl rfl, .of_plain rfl rfl, rfl, hends, hcloses⟩
  | item items =>
    obtain ⟨rest, hrest, hcloses⟩ := hitems ht
    exact ⟨.punct .closeParen :: rest, List.cons_subset.2 ⟨hmark .collection, hrest⟩, .noItems,
      rest, .of_plain rfl rfl, rfl, hcloses⟩

/-- Where targets are nested, the row inside of them can be ended: as the predicates of a subject,
and as a collection where something waits for one. -/
theorem exists_closes (scope : Scope) (h : Nested waiting) :
    (∃ ending rest, rest ⊆ fillers ∧ ending.EndsSubject ∧ Closes scope waiting ending rest) ∧
      (waiting ≠ [] → ∃ rest, rest ⊆ fillers ∧ Closes scope waiting .collection rest) := by
  induction waiting with
  | nil =>
    exact ⟨⟨.statement, [], List.nil_subset _, .inl rfl, statements_nil scope⟩,
      fun hne => absurd rfl hne⟩
  | cons target waiting ih =>
    obtain ⟨htarget, hwaiting⟩ := h
    obtain ⟨hends, hitems⟩ := ih hwaiting
    obtain ⟨rest, hrest, hbracket⟩ := exists_continues scope htarget hends hitems true
    obtain ⟨rest', hrest', hcollection⟩ :=
      exists_continues scope htarget hends hitems false
    exact ⟨⟨.bracket, rest, hrest, .inr rfl, hbracket⟩, fun _ => ⟨rest', hrest', hcollection⟩⟩

namespace State

theorem exists_goes (h : s.WellNested) (ht : target.Within s.waiting) (mayEnd : Bool) :
    ∃ lexemes, lexemes ⊆ fillers ∧ s.Goes target mayEnd lexemes := by
  obtain ⟨hends, hitems⟩ := exists_closes s.scope h.waiting
  exact exists_continues s.scope ht hends hitems mayEnd

theorem exists_demandsIri (s : State) (word : Directive) (after : Iri → Scope) :
    ∃ lexemes, lexemes ⊆ fillers ∧ s.DemandsIri word after lexemes := by
  refine ⟨.iri "urn:x" :: (directiveEnd word.isDotted ++ []), ?_, "urn:x", [], rfl,
    filler_inScope _, statements_nil _⟩
  cases hd : word.isDotted <;> simp [directiveEnd, fillers]

/-- Whatever a state demands, some lexemes meet it. -/
theorem exists_remains (h : s.WellNested) : ∃ lexemes, lexemes ⊆ fillers ∧ s.Remains lexemes := by
  have htarget := h.expecting
  have hsubject := fun mayEnd => @exists_goes s .subject h trivial mayEnd
  obtain ⟨ending, closing, hclosing, hends, hcloses⟩ := (exists_closes s.scope h.waiting).1
  have hmore : .punct ending.mark :: closing ⊆ fillers := by
    cases ending <;> exact List.cons_subset.2 ⟨by simp [Ending.mark, fillers], hclosing⟩
  unfold Remains
  cases he : s.expecting with
  | term target =>
    cases target with
    | subject => exact ⟨[], List.nil_subset _, fun _ => statements_nil _⟩
    | item items => exact exists_goes h (htarget _ (he ▸ rfl)) false
    | object subject predicate =>
      obtain ⟨rest, hrest, hgoes⟩ := @exists_goes s (.object subject predicate) h trivial false
      refine ⟨filler.lexemes ++ rest, ?_, filler, rest, fits_filler _ _, rfl, hgoes⟩
      exact List.append_subset.2 ⟨by decide, hrest⟩
  | label word =>
    obtain ⟨rest, hrest, hiri⟩ := s.exists_demandsIri word fun iri =>
      { s.scope with spaces := Graph.bindIn "" iri s.scope.spaces }
    exact ⟨.name "" "" :: rest, List.cons_subset.2 ⟨by simp [fillers], hrest⟩,
      fun _ => ⟨"", rest, rfl, hiri⟩⟩
  | space word label =>
    obtain ⟨rest, hrest, hiri⟩ := s.exists_demandsIri word fun iri =>
      { s.scope with spaces := Graph.bindIn label iri s.scope.spaces }
    exact ⟨rest, hrest, fun _ => hiri⟩
  | base word =>
    obtain ⟨rest, hrest, hiri⟩ := s.exists_demandsIri word fun iri =>
      { s.scope with base := iri }
    exact ⟨rest, hrest, fun _ => hiri⟩
  | directiveEnd word =>
    exact ⟨[.punct .dot], by simp [fillers], fun _ => ⟨[], rfl, statements_nil _⟩⟩
  | predicate subject => exact hsubject false
  | anyPredicate subject => exact hsubject true
  | firstPredicate node =>
    refine ⟨fillerPredicates.lexemes ++ .punct ending.mark :: closing, ?_, .inl ⟨fillerPredicates,
      ending, closing, fits_fillerPredicates _ _, rfl, hends, hcloses⟩⟩
    exact List.append_subset.2 ⟨by decide, hmore⟩
  | more subject predicate => exact @exists_goes s (.object subject predicate) h trivial false
  | nextPredicate subject =>
    exact ⟨.punct ending.mark :: closing, hmore, ending, closing,
      .inr ⟨.noMore, .of_plain rfl rfl, rfl⟩, hends, hcloses⟩
  | suffix value target =>
    obtain ⟨rest, hrest, hgoes⟩ := exists_goes h (htarget target (he ▸ rfl)) false
    exact ⟨rest, hrest, .nothing, rest, List.forall_mem_nil _, rfl, hgoes⟩
  | datatype value target =>
    obtain ⟨rest, hrest, hgoes⟩ := exists_goes h (htarget target (he ▸ rfl)) false
    exact ⟨.iri "urn:x" :: rest, List.cons_subset.2 ⟨by simp [fillers], hrest⟩, .iri "urn:x", rest,
      filler_inScope _, rfl, hgoes⟩
  | nothing => exact ⟨[], List.nil_subset _, trivial⟩

/-- The end of the text is not among what leads to a live state. -/
theorem eof_not_mem_of_run (hrun : machine.runLexemes s read = .ok s1)
    (hlive : s1.expecting ≠ .nothing) : .eof ∉ read := by
  intro hmem
  obtain ⟨before, after, rfl⟩ := List.append_of_mem hmem
  obtain ⟨middle, -, hlater⟩ := machine.between_of_runLexemes hrun
  obtain ⟨next, hs, hrest⟩ := step_of_run hlater
  have hended := graph?_of_eof hs
  simp only [graph?, ite_eq_left_iff, reduceCtorEq, imp_false, not_not] at hended
  exact live_before_run hrest hlive hended

/-- What has been read stands in front of what is demanded behind it. -/
theorem remains_before_run (hrun : machine.runLexemes s read = .ok s1) (hread : .eof ∉ read)
    (h : s1.Remains rest) : s.Remains (read ++ rest) := by
  induction read generalizing s with
  | nil => exact Except.ok.inj hrun ▸ h
  | cons l read ih =>
    obtain ⟨hl, hread⟩ := not_or.1 (mt List.mem_cons.2 hread)
    obtain ⟨next, hs, hrest⟩ := step_of_run hrun
    exact remains_of_step hs (Ne.symm hl) (ih hrest hread)

/-- Whatever the reader has taken, a document begins with it. -/
theorem exists_later {base : Option Iri} (hread : .eof ∉ read)
    (hrun : machine.runLexemes { graph := { base } } read = .ok s) :
    ∃ later, later ⊆ fillers ∧ ∃ next : State,
      machine.runLexemes { graph := { base } } (read ++ later ++ [.eof]) =
        .ok (next.expect .nothing) := by
  obtain ⟨later, hlater, hremains⟩ := exists_remains ((wellNested_start base).run hrun)
  obtain ⟨document, hlexemes, hscope, hshallow⟩ := remains_before_run hrun hread hremains rfl
  have hproper : ∀ l ∈ document.lexemes, l.Proper := by
    rw [hlexemes]
    refine List.forall_mem_append.2 ⟨?_, fun l hl => ?_⟩
    · exact (recorded_start base).proper_of_run nofun nofun hread hrun
    · have hfillers : ∀ l ∈ fillers, l.Proper := by simp [fillers, Lexeme.Proper]
      exact hfillers l (hlater hl)
  obtain ⟨next, new, hruns, -⟩ := document.runs base hscope hproper hshallow
  exact ⟨later, hlater, next, hlexemes ▸ hruns⟩

end State

/-! ### The first impossible token -/

theorem isScanned_of_fillers (hl : l ∈ fillers) : l ≠ .eof ∧ IsScanned l := by
  have htexts : ∀ l ∈ fillers, l ≠ .eof ∧ ∃ text ∈ ["a", "<urn:x>", ":", ".", "]", ")"],
      (Lexeme.scan false text.toList).toOption.map (·.1) = some l := by decide +kernel
  obtain ⟨hne, text, -, hscan⟩ := htexts l hl
  exact ⟨hne, .of_text text hscan⟩

/-- Some document begins with the tokens, where a base is in force at first. It goes on with tokens
that the scanner finds in texts, and is read up to its end. -/
def BeginsDocument (base : Option Iri) (tokens : List Token) : Prop :=
  ∃ later : List Token, (∀ token ∈ tokens ++ later, token.lexeme ≠ .eof) ∧
    (∀ token ∈ later, IsScanned token.lexeme) ∧
    ∀ (source : SourceName) (last : Token), last.lexeme = .eof →
      ∃ g, readTokens source base ⟨tokens ++ later ++ [last], none⟩ = .ok g

/-- No document begins with tokens of these kinds, with these values and labels, whatever base is
in force at first. -/
def BeginsNoDocument (tokens : List Token) : Prop :=
  ∀ (source : SourceName) (base : Option Iri) (document : Tokens),
    tokens.map (·.lexeme.bare) <+: document.tokens.map (·.lexeme.bare) →
      ∀ g, readTokens source base document ≠ .ok g

theorem beginsDocument_of_run {base : Option Iri} {tokens : List Token}
    (hlive : s.expecting ≠ .nothing)
    (hrun : machine.runLexemes { graph := { base } } (tokens.map (·.lexeme)) = .ok s) :
    BeginsDocument base tokens := by
  have hread : .eof ∉ tokens.map (·.lexeme) := State.eof_not_mem_of_run hrun hlive
  obtain ⟨later, hlater, next, hruns⟩ := State.exists_later hread hrun
  refine ⟨later.map fun l => ⟨l, .start⟩, ?_, ?_, fun source last hlast => ?_⟩
  · refine List.forall_mem_append.2 ⟨fun token ht he => hread ?_, ?_⟩
    · exact List.mem_map.2 ⟨token, ht, he⟩
    · exact List.forall_mem_map.2 fun l hl => (isScanned_of_fillers (hlater hl)).1
  · exact List.forall_mem_map.2 fun l hl => (isScanned_of_fillers (hlater hl)).2
  · refine ⟨next.graph, machine.read_eq_ok_iff.2 ⟨next.expect .nothing, ?_, rfl⟩⟩
    simpa [hlast, Function.comp_def] using hruns

theorem beginsNoDocument_of_refused {base : Option Iri} {tokens : List Token} {token : Token}
    {fault : GrammarFault}
    (hrun : machine.runLexemes { graph := { base } } (tokens.map (·.lexeme)) = .ok s)
    (hs : s.step token.lexeme = refuse fault) : BeginsNoDocument (tokens ++ [token]) := by
  intro source base' document hsame g hg
  obtain ⟨next, hruns, -⟩ := machine.read_eq_ok_iff.1 hg
  have hstart : State.Parallel { graph := { base } } { graph := { base := base' } } :=
    ⟨.term .subject, .nil⟩
  refine State.not_ok_of_refused hstart ?_ hrun hs next hruns
  simpa [Function.comp_def] using hsame

/-- The token that the grammar refuses is the first impossible one: documents under the same base
begin with the tokens before it, and no document begins with those and with it. -/
theorem readTokens_refuses_first_impossible {source name : SourceName} {base : Option Iri}
    {tokens : Tokens} {place : Place} {fault : GrammarFault} {token : Token}
    (h : readTokens source base tokens =
      .error (.document ⟨name, place, .grammar fault token⟩)) :
    place = token.place ∧ ∃ before after, tokens.tokens = before ++ token :: after ∧
      BeginsDocument base before ∧ BeginsNoDocument (before ++ [token]) := by
  obtain ⟨hrun, hplace⟩ := machine.run_of_read_grammar h
  obtain ⟨before, after, s, htokens, hbefore, hstep⟩ := machine.refused_of_run hrun
  have hlive : s.expecting ≠ .nothing := fun he =>
    nomatch (State.step_nothing he token.lexeme).symm.trans hstep
  exact ⟨hplace, before, after, htokens, beginsDocument_of_run hlive hbefore,
    beginsNoDocument_of_refused hbefore hstep⟩

theorem readTokens_refuses_closeParen :
    let token (lexeme : Lexeme) : Token := ⟨lexeme, .start⟩
    let tokens := [.iri "urn:s", .a, .punct .openParen, .number .integer "1", .punct .openBracket,
      .a, .string "'" "x", .punct .semicolon, .punct .closeParen, .punct .dot, .eof].map token
    readTokens (.text "tokens") none ⟨tokens, none⟩ = .error (.document
        ⟨.text "tokens", .start, .grammar .bracketEnd (token (.punct .closeParen))⟩) ∧
      ∃ before after, tokens = before ++ token (.punct .closeParen) :: after ∧
        BeginsDocument none before ∧ BeginsNoDocument (before ++ [token (.punct .closeParen)]) := by
  intro token tokens
  have hrefused : readTokens (.text "tokens") none ⟨tokens, none⟩ = .error (.document
      ⟨.text "tokens", .start, .grammar .bracketEnd (token (.punct .closeParen))⟩) := by
    decide +kernel
  exact ⟨hrefused, (readTokens_refuses_first_impossible hrefused).2⟩

end Rdf.Turtle

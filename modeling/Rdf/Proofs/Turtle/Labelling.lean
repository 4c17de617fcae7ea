import Mathlib.Data.List.Nodup
import Rdf.Proofs.Token.Extent
import Rdf.Proofs.Turtle.Moves

/-!
How the reader of Turtle takes labels for its blank nodes.

Each id that the reader gives has an origin: a bracket, a cell of a collection, or a label of the
document, which is kept or has a new id standing in for it. `births` is the row of the ids with
their origins. What a graph has seen is just the row of the ids, all different, and what a label
stands for is the id that was given for it. A label is kept unless its own id was minted before.
-/

namespace Rdf.Turtle

/-- What a blank node was given its id for. -/
inductive Origin where
  | bracket
  | cell
  /-- A label whose own id had been minted. -/
  | standIn (label : String)
  /-- A label that is its own id. -/
  | kept (label : String)
  deriving DecidableEq, Repr

namespace Origin

def isMinted : Origin → Bool
  | kept _ => false
  | _ => true

def label? : Origin → Option String
  | standIn label | kept label => some label
  | bracket | cell => none

end Origin

/-- The ids that a state gives when it reads a lexeme, with their origins. -/
def State.born (s : State) (l : Lexeme) : List (Origin × String) :=
  match s.expecting, l with
  | .nothing, _ => []
  | _, .punct .openBracket => [(.bracket, s.graph.mint.1)]
  | .term (.item items), .punct .closeParen =>
    (s.graph.mintMany items.length).1.map fun id => (.cell, id)
  | _, .blank label =>
    if (s.labels.lookup label).isSome then []
    else if s.graph.hasSeen label then [(.standIn label, s.graph.mint.1)]
    else [(.kept label, label)]
  | _, _ => []

/-- The ids that the reader gives along a row of lexemes. -/
def births (s : State) : List Lexeme → List (Origin × String)
  | [] => []
  | l :: rest =>
    match s.step l with
    | .error _ => []
    | .ok s1 => (s.settled l).born l ++ births s1 rest

/-- No bracket is opened, and all collections are empty. -/
structure IsFlat (lexemes : List Lexeme) : Prop where
  bracket : .punct .openBracket ∉ lexemes
  paren : ∀ before l after, lexemes = before ++ .punct .openParen :: l :: after →
    l = .punct .closeParen

/-- The ids that were minted, for nodes without a label or for labels whose ids were taken. -/
def minted (born : List (Origin × String)) : List String :=
  (born.filter (·.1.isMinted)).map (·.2)

/-- The entry of a label in the table of labels. -/
def entryOf (birth : Origin × String) : Option (String × Term) :=
  birth.1.label?.map fun label => (label, .blank birth.2)

/-- What a state has seen and has given to labels comes from a row of births, whatever it expects. -/
structure State.Stems (born : List (Origin × String)) (s : State) : Prop where
  seen : s.graph.seen = born.map (·.2)
  nodup : s.graph.seen.Nodup
  labels : s.labels = (born.filterMap entryOf).reverse
  kept : ∀ label id, (.kept label, id) ∈ born → id = label
  waiting : ∀ target ∈ s.waiting, target.ids ⊆ s.graph.seen

/-- So does what it expects. -/
structure State.Recorded (born : List (Origin × String)) (s : State) : Prop where
  stems : s.Stems born
  expecting : s.expecting.ids ⊆ s.graph.seen

variable {s s1 : State} {born : List (Origin × String)} {l : Lexeme} {target : Target}
  {term : Term} {label : String} {read more : List Lexeme}

/-! ### Terms -/

theorem blankIds_subset {seen : List String} {subject predicate object : Term}
    (hs : subject.blankId?.toList ⊆ seen) (ho : object.blankId?.toList ⊆ seen) :
    Triple.blankIds ⟨subject, predicate, object⟩ ⊆ seen := by
  have hids : Triple.blankIds ⟨subject, predicate, object⟩ =
      subject.blankId?.toList ++ object.blankId?.toList := by
    cases subject <;> cases object <;> rfl
  rw [hids]
  exact List.append_subset.2 ⟨hs, ho⟩

/-- A known term that goes to its target leaves everything known. -/
theorem State.Stems.delivers (h : s.Stems born) (hterm : term.blankId?.toList ⊆ s.graph.seen)
    (ht : target.ids ⊆ s.graph.seen) (hd : Delivers s term target s1) : s1.Recorded born := by
  cases hd with
  | subject mayEnd =>
    refine ⟨⟨h.seen, h.nodup, h.labels, h.kept, h.waiting⟩, ?_⟩
    cases mayEnd <;> exact hterm
  | object subject predicate =>
    have hsubject : subject.blankId?.toList ⊆ s.graph.seen := by
      refine List.Subset.trans ?_ ht
      cases hs : subject.blankId? <;> simp [Target.ids, hs, List.filterMap_cons]
    have hids : Triple.blankIds ⟨subject, predicate, term⟩ ⊆ s.graph.seen :=
      blankIds_subset hsubject hterm
    have hseen := Graph.seen_add_of_subset hids
    refine ⟨⟨hseen.trans h.seen, ?_, h.labels, h.kept, ?_⟩, ?_⟩
    · exact hseen.symm ▸ h.nodup
    · exact hseen.symm ▸ h.waiting
    · exact hseen.symm ▸ ht
  | item items =>
    refine ⟨⟨h.seen, h.nodup, h.labels, h.kept, h.waiting⟩, ?_⟩
    have hids : (Expecting.term (.item (term :: items))).ids =
        term.blankId?.toList ++ (Target.item items).ids := by
      cases hi : term.blankId? <;> simp [Expecting.ids, Target.ids, hi]
    exact hids ▸ List.append_subset.2 ⟨hterm, ht⟩

theorem mem_entries {node : Term} :
    (label, node) ∈ born.filterMap entryOf ↔
      ∃ origin id, (origin, id) ∈ born ∧ origin.label? = some label ∧ node = .blank id := by
  simp only [List.mem_filterMap, Prod.exists, entryOf, Option.map_eq_some_iff, Prod.mk.injEq]
  constructor
  · rintro ⟨origin, id, hmem, _, hlabel, rfl, rfl⟩
    exact ⟨origin, id, hmem, hlabel, rfl⟩
  · rintro ⟨origin, id, hmem, hlabel, rfl⟩
    exact ⟨origin, id, hmem, label, hlabel, rfl, rfl⟩

/-- A label has its node from a birth. -/
theorem State.Stems.birth (h : s.Stems born) {node : Term}
    (hl : s.labels.lookup label = some node) :
    ∃ origin id, (origin, id) ∈ born ∧ origin.label? = some label ∧ node = .blank id := by
  obtain ⟨before, behind, hlabels, -⟩ := List.lookup_eq_some_iff.1 hl
  have hmem : (label, node) ∈ s.labels := by simp [hlabels]
  rw [h.labels, List.mem_reverse] at hmem
  exact mem_entries.1 hmem

theorem State.Stems.blank_seen (h : s.Stems born) {node : Term}
    (hl : s.labels.lookup label = some node) : node.blankId?.toList ⊆ s.graph.seen := by
  obtain ⟨origin, id, hmem, -, rfl⟩ := h.birth hl
  have hid : id ∈ s.graph.seen := h.seen ▸ List.mem_map.2 ⟨_, hmem, rfl⟩
  simpa [Term.blankId?] using hid

/-- A birth is recorded with the id that it gives. -/
theorem State.Stems.give (h : s.Stems born) {origin : Origin} {id : String}
    (hnew : id ∉ s.graph.seen) (hkept : ∀ label, origin = .kept label → id = label) {g : Graph}
    (hseen : g.seen = s.graph.seen ++ [id]) :
    State.Stems (born ++ [(origin, id)])
      { s with graph := g, labels := (entryOf (origin, id)).toList ++ s.labels } := by
  constructor
  · simp [hseen, h.seen]
  · rw [hseen, List.nodup_append]
    refine ⟨h.nodup, by simp, fun a ha b hb he => ?_⟩
    obtain rfl := List.mem_singleton.1 hb
    exact hnew (he ▸ ha)
  · rw [List.filterMap_append, List.reverse_append, ← h.labels]
    cases he : entryOf (origin, id) <;> simp [he]
  · intro label other hmem
    cases List.mem_append.1 hmem with
    | inl hold => exact h.kept label other hold
    | inr hlast =>
      obtain ⟨hlabel, rfl⟩ := Prod.mk.inj (List.mem_singleton.1 hlast)
      exact hkept label hlabel.symm
  · intro target htarget
    rw [hseen]
    exact List.Subset.trans (h.waiting target htarget) (List.subset_append_left _ _)

theorem State.Stems.mint (h : s.Stems born) {origin : Origin}
    (hminted : origin.isMinted = true) :
    State.Stems (born ++ [(origin, s.graph.mint.1)])
      { s with
        graph := s.graph.mint.2
        labels := (entryOf (origin, s.graph.mint.1)).toList ++ s.labels } :=
  h.give (Graph.mint_not_mem s.graph) (fun label he => by simp [he, Origin.isMinted] at hminted) rfl

theorem see_seen {g : Graph} {id : String} (h : id ∉ g.seen) :
    (g.see id).seen = g.seen ++ [id] := by
  simp [Graph.see, Graph.hasSeen, h]

/-- The node of a label is the one that it has, a new one where its id is taken, or its own id. -/
theorem State.Stems.nodeOfLabel (h : s.Stems born) {node : Term} {s0 : State}
    (hlive : s.expecting ≠ .nothing) (hnode : s.nodeOfLabel label = .ok (node, s0)) :
    s0.Stems (born ++ s.born (.blank label)) ∧ s0.labels.lookup label = some node ∧
      s.graph.seen ⊆ s0.graph.seen := by
  have hborn : s.born (.blank label) =
      if (s.labels.lookup label).isSome then []
      else if s.graph.hasSeen label then [(.standIn label, s.graph.mint.1)]
      else [(.kept label, label)] := by
    cases he : s.expecting <;> first | exact absurd he hlive | simp [State.born, he]
  cases hl : s.labels.lookup label with
  | some found =>
    simp only [State.nodeOfLabel, hl] at hnode
    obtain ⟨rfl, rfl⟩ := Prod.mk.inj (Except.ok.inj hnode)
    rw [hborn, hl]
    refine ⟨?_, rfl, List.Subset.refl _⟩
    simpa using h
  | none =>
    by_cases hseen : label ∈ s.graph.seen
    · have hhas : s.graph.hasSeen label = true := by simpa [Graph.hasSeen] using hseen
      simp only [State.nodeOfLabel, hl, hhas, if_true] at hnode
      obtain ⟨rfl, rfl⟩ := Prod.mk.inj (Except.ok.inj hnode)
      rw [hborn, hl]
      refine ⟨?_, by simp, List.subset_append_left _ _⟩
      have hmint := h.mint (rfl : (Origin.standIn label).isMinted = true)
      simpa [hhas, entryOf, Origin.label?] using hmint
    · have hhas : s.graph.hasSeen label = false := by simpa [Graph.hasSeen] using hseen
      by_cases hempty : label = ""
      · subst hempty
        simp [State.nodeOfLabel, hl, hhas, Graph.reserve, Term.ofBlankId, Refusal.checked, bind,
          Except.bind] at hnode
      · have hgiven : Term.blank label = node ∧
            { s with graph := s.graph.see label, labels := (label, .blank label) :: s.labels } =
              s0 := by
          simpa [State.nodeOfLabel, hl, hhas, hempty, Graph.reserve, Term.ofBlankId,
            Refusal.checked, bind, Except.bind, pure, Except.pure, Term.blankId?] using hnode
        obtain ⟨rfl, rfl⟩ := hgiven
        rw [hborn, hl]
        refine ⟨?_, by simp, (seen_see s.graph label).1⟩
        have hown : ∀ other, Origin.kept label = .kept other → label = other :=
          fun _ he => Origin.kept.inj he
        simpa [hhas, entryOf, Origin.label?] using h.give hseen hown (see_seen hseen)

/-! ### Collections -/

theorem State.Stems.mintMany (h : s.Stems born) (count : Nat) :
    State.Stems (born ++ (s.graph.mintMany count).1.map fun id => (.cell, id))
      { s with graph := (s.graph.mintMany count).2 } := by
  have hseen := Graph.seen_mintMany s.graph count
  constructor
  · simp [hseen, h.seen, Function.comp_def]
  · exact Graph.nodup_seen_mintMany h.nodup count
  · have hnone : ((s.graph.mintMany count).1.map fun id => (Origin.cell, id)).filterMap entryOf =
        [] := by
      simp [List.filterMap_map, entryOf, Origin.label?, Function.comp_def]
    rw [List.filterMap_append, hnone, List.append_nil, ← h.labels]
  · intro label id hmem
    cases List.mem_append.1 hmem with
    | inl hold => exact h.kept label id hold
    | inr hnew => simp at hnew
  · intro target htarget
    rw [hseen]
    exact List.Subset.trans (h.waiting target htarget) (List.subset_append_left _ _)

/-- The cells of a collection go to its items and to each other. -/
theorem State.Stems.chained (h : s.Stems born) {items : List Term}
    (hitems : (Target.item items).ids ⊆ s.graph.seen) :
    State.Stems (born ++ (s.graph.mintMany items.length).1.map fun id => (.cell, id))
        (s.chained items) ∧
      (((s.graph.mintMany items.length).1.map Term.blank).headD
        (.iri Vocabulary.nil)).blankId?.toList ⊆ (s.chained items).graph.seen ∧
      s.graph.seen ⊆ (s.chained items).graph.seen := by
  let cells := s.graph.mintMany items.length
  have hmint := h.mintMany items.length
  have hseen : cells.2.seen = s.graph.seen ++ cells.1 :=
    Graph.seen_mintMany s.graph items.length
  have hcells : ∀ id ∈ cells.1, (Term.blank id).blankId?.toList ⊆ cells.2.seen := by
    intro id hid
    simp [Term.blankId?, hseen, hid]
  have hlinks : ∀ t ∈ chainTriples ((cells.1.map Term.blank).zip items.reverse),
      t.blankIds ⊆ cells.2.seen := by
    refine forall_mem_chainTriples (fun t => t.blankId?.toList ⊆ cells.2.seen)
      (fun t => t.blankId?.toList ⊆ cells.2.seen) (fun hcell hitem => blankIds_subset hcell hitem)
      ?_ ?_
    · rintro cell next hcell (hnext | rfl)
      · exact blankIds_subset hcell hnext
      · exact blankIds_subset hcell (List.nil_subset _)
    · intro link hlink
      obtain ⟨hcell, hitem⟩ := List.of_mem_zip hlink
      obtain ⟨id, hid, he⟩ := List.mem_map.1 hcell
      refine ⟨he ▸ hcells id hid, fun id hid => ?_⟩
      have hknown : id ∈ (Target.item items).ids :=
        List.mem_filterMap.2 ⟨link.2, List.mem_reverse.1 hitem, by simpa using hid⟩
      exact hseen ▸ List.mem_append_left _ (hitems hknown)
  have hgraph : (s.chained items).graph.seen = cells.2.seen := Graph.seen_addAll_of_subset hlinks
  refine ⟨⟨hgraph.trans hmint.seen, hgraph ▸ hmint.nodup, hmint.labels, hmint.kept,
    hgraph ▸ hmint.waiting⟩, ?_, ?_⟩
  · rw [hgraph]
    cases hc : cells.1 with
    | nil => simp [cells, Term.blankId?]
    | cons id rest =>
      have hfirst := hcells id (by simp [hc])
      simpa [cells, hc] using hfirst
  · rw [hgraph, hseen]
    exact List.subset_append_left _ _

/-! ### Steps -/

theorem State.born_of_isSimple (hl : l.isSimple = true) : s.born l = [] := by
  cases l with
  | punct mark => cases mark <;> cases he : s.expecting <;> simp_all [State.born, Lexeme.isSimple]
  | blank label => simp [Lexeme.isSimple] at hl
  | _ => cases he : s.expecting <;> simp [State.born, he]

theorem ids_of_target? {expecting : Expecting} (h : expecting.target? = some target) :
    expecting.ids = target.ids := by
  cases expecting <;> simp_all [Expecting.target?, Expecting.ids]

/-- What waits stays known when something new is seen. -/
theorem State.Stems.pop (h : s.Stems born) {waiting : List Target}
    (hw : s.waiting = target :: waiting) :
    target.ids ⊆ s.graph.seen ∧ State.Stems born { s with waiting } := by
  have hwaiting := h.waiting
  rw [hw] at hwaiting
  obtain ⟨htarget, hrest⟩ := List.forall_mem_cons.1 hwaiting
  exact ⟨htarget, h.seen, h.nodup, h.labels, h.kept, hrest⟩

/-- A move keeps the record, with the births of its lexeme. -/
theorem State.Recorded.moves (h : s.Recorded born) (hm : Moves s l s1) :
    s1.Recorded (born ++ s.born l) := by
  obtain ⟨hstems, hexpecting⟩ := h
  cases hm with
  | ended he =>
    have hborn : s.born l = [] := by simp [State.born, he]
    rw [hborn, List.append_nil]
    exact ⟨hstems, hexpecting⟩
  | turn hl hseen hids htarget hend =>
    rw [State.born_of_isSimple hl, List.append_nil]
    exact ⟨⟨hseen.trans hstems.seen, hseen ▸ hstems.nodup, hstems.labels, hstems.kept,
      hseen ▸ hstems.waiting⟩, hseen ▸ List.Subset.trans hids hexpecting⟩
  | deliver hl ht hterm hd =>
    rw [State.born_of_isSimple hl, List.append_nil]
    exact hstems.delivers (by simp [hterm]) (ids_of_target? ht ▸ hexpecting) hd
  | label ht hnode hd =>
    have hlive : s.expecting ≠ .nothing := by simp [ht]
    obtain ⟨hgiven, hlookup, hseen⟩ := hstems.nodeOfLabel hlive hnode
    rw [ht] at hexpecting
    exact hgiven.delivers (hgiven.blank_seen hlookup) (List.Subset.trans hexpecting hseen) hd
  | @openBracket target ht hroom =>
    have hborn : s.born (.punct .openBracket) = [(.bracket, s.graph.mint.1)] := by
      simp [State.born, ht]
    have hmint := hstems.mint (rfl : Origin.bracket.isMinted = true)
    rw [ht] at hexpecting
    rw [hborn]
    have hwaiting : ∀ other ∈ target :: s.waiting, other.ids ⊆ s.graph.mint.2.seen :=
      List.forall_mem_cons.2
        ⟨List.Subset.trans hexpecting (List.subset_append_left _ _), hmint.waiting⟩
    refine ⟨⟨hmint.seen, hmint.nodup, hmint.labels, hmint.kept, hwaiting⟩, ?_⟩
    simp [Expecting.ids, Term.blankId?, Graph.mint]
  | @openParen target ht hroom =>
    have hborn : s.born (.punct .openParen) = [] := by simp [State.born, ht]
    rw [ht] at hexpecting
    rw [hborn, List.append_nil]
    exact ⟨⟨hstems.seen, hstems.nodup, hstems.labels, hstems.kept,
      List.forall_mem_cons.2 ⟨hexpecting, hstems.waiting⟩⟩, List.nil_subset _⟩
  | closeBracket hnode hw hd =>
    have hborn : s.born (.punct .closeBracket) = [] := by
      cases he : s.expecting <;> simp [State.born, he]
    obtain ⟨htarget, hpopped⟩ := hstems.pop hw
    rw [hborn, List.append_nil]
    exact hpopped.delivers (List.Subset.trans hnode hexpecting) htarget hd
  | @closeParen items target waiting _ ht hw hd =>
    have hborn : s.born (.punct .closeParen) =
        (s.graph.mintMany items.length).1.map fun id => (.cell, id) := by
      simp [State.born, ht]
    obtain ⟨htarget, hpopped⟩ := hstems.pop hw
    rw [ht] at hexpecting
    obtain ⟨hchained, hhead, hseen⟩ := hpopped.chained hexpecting
    rw [hborn]
    exact hchained.delivers hhead (List.Subset.trans htarget hseen) hd

/-- A string that is handed over brings nothing in. -/
theorem State.Recorded.settled (h : s.Recorded born) (hs : s.step l = .ok s1) :
    (s.settled l).Recorded born := by
  obtain hsame | ⟨literal, value, target, he, hd⟩ := (State.moves_of_step hs).1
  · rwa [hsame]
  · have hids := h.expecting
    rw [he] at hids
    exact h.stems.delivers (List.nil_subset _) hids hd

theorem State.Recorded.step (h : s.Recorded born) (hs : s.step l = .ok s1) :
    s1.Recorded (born ++ (s.settled l).born l) :=
  (h.settled hs).moves (State.moves_of_step hs).2

theorem State.Recorded.run (h : s.Recorded born) (hrun : machine.runLexemes s read = .ok s1) :
    s1.Recorded (born ++ births s read) := by
  induction read generalizing s born with
  | nil =>
    obtain rfl := Except.ok.inj hrun
    simpa [births] using h
  | cons l read ih =>
    obtain ⟨next, hstep, hrest⟩ := State.step_of_run hrun
    simpa [births, hstep] using ih (h.step hstep) hrest

theorem recorded_start (base : Option Iri) : State.Recorded [] { graph := { base } } :=
  ⟨⟨rfl, List.nodup_nil, rfl, by simp, by simp⟩, List.nil_subset _⟩

/-! ### The table of labels -/

/-- A state gives a label its node where it reads the label and has none for it. -/
theorem State.entries_born (s : State) (l : Lexeme) :
    ((s.born l).filterMap entryOf = [] ∧
        ∀ label, l = .blank label → s.expecting = .nothing ∨ (s.labels.lookup label).isSome) ∨
      ∃ label id, l = .blank label ∧ s.labels.lookup label = none ∧
        (s.born l).filterMap entryOf = [(label, .blank id)] ∧
          (id = label ∧ label ∉ s.graph.seen ∨ id = s.graph.mint.1 ∧ label ∈ s.graph.seen) := by
  by_cases hlive : s.expecting = .nothing
  · exact .inl ⟨by simp [State.born, hlive], fun _ _ => .inl hlive⟩
  · cases l with
    | blank label =>
      have hborn : s.born (.blank label) =
          if (s.labels.lookup label).isSome then []
          else if s.graph.hasSeen label then [(.standIn label, s.graph.mint.1)]
          else [(.kept label, label)] := by
        cases he : s.expecting <;> first | exact absurd he hlive | simp [State.born, he]
      cases hl : s.labels.lookup label with
      | some node =>
        refine .inl ⟨by simp [hborn, hl], fun other he => .inr ?_⟩
        obtain rfl := Lexeme.blank.inj he
        simp [hl]
      | none =>
        by_cases hseen : label ∈ s.graph.seen
        · refine .inr ⟨label, s.graph.mint.1, rfl, hl, ?_, .inr ⟨rfl, hseen⟩⟩
          simp [hborn, hl, Graph.hasSeen, hseen, entryOf, Origin.label?]
        · refine .inr ⟨label, label, rfl, hl, ?_, .inl ⟨rfl, hseen⟩⟩
          simp [hborn, hl, Graph.hasSeen, hseen, entryOf, Origin.label?]
    | punct mark =>
      refine .inl ⟨?_, by simp⟩
      cases mark with
      | closeParen =>
        cases he : s.expecting with
        | term target =>
          cases target <;>
            simp [State.born, he, List.filterMap_map, Function.comp_def, entryOf, Origin.label?]
        | _ => simp [State.born, he]
      | _ =>
        cases he : s.expecting <;> simp [State.born, he, entryOf, Origin.label?]
    | _ => exact .inl ⟨by rw [State.born_of_isSimple rfl]; rfl, by simp⟩

theorem expecting_of_delivers (hd : Delivers s term target s1) : s1.expecting ≠ .nothing := by
  cases hd with
  | subject mayEnd => cases mayEnd <;> simp [State.expect]
  | _ => simp [State.expect]

theorem State.settled_ended (h : s.step l = .ok s1) :
    (s.settled l).expecting = .nothing ↔ s.expecting = .nothing := by
  obtain hsame | ⟨literal, value, target, he, hd⟩ := (State.moves_of_step h).1
  · rw [hsame]
  · simp [he, expecting_of_delivers hd]

/-- Only the end of the text ends a document. -/
theorem State.live_of_step (h : s.step l = .ok s1) (hl : l ≠ .eof) (hlive : s.expecting ≠ .nothing) :
    s1.expecting ≠ .nothing := by
  have hsettled := mt (State.settled_ended h).1 hlive
  cases (State.moves_of_step h).2 with
  | ended he => exact absurd he hsettled
  | turn _ _ _ _ hend => exact fun he => hl (hend he)
  | openBracket | openParen => simp
  | deliver _ _ _ hd | label _ _ hd | closeBracket _ _ hd | closeParen _ _ hd =>
    exact expecting_of_delivers hd

theorem State.live_of_run (hrun : machine.runLexemes s read = .ok s1) (hread : .eof ∉ read)
    (hlive : s.expecting ≠ .nothing) : s1.expecting ≠ .nothing := by
  induction read generalizing s with
  | nil => exact Except.ok.inj hrun ▸ hlive
  | cons l read ih =>
    obtain ⟨hl, hread⟩ := not_or.1 (mt List.mem_cons.2 hread)
    obtain ⟨next, hs, hrest⟩ := State.step_of_run hrun
    exact ih hrest hread (State.live_of_step hs (Ne.symm hl) hlive)

/-- A step keeps the table of labels, or puts the label that it reads in front. The label is its
own id unless the id has been seen. -/
theorem State.Recorded.labels_step (h : s.Recorded born) (hs : s.step l = .ok s1) :
    (s1.labels = s.labels ∧
        ∀ label, l = .blank label → s.expecting = .nothing ∨ (s.labels.lookup label).isSome) ∨
      ∃ label id, l = .blank label ∧ s.labels.lookup label = none ∧
        s1.labels = (label, .blank id) :: s.labels ∧ (id = label ↔ label ∉ s.graph.seen) := by
  have hsettled := h.settled hs
  have hsame : (s.settled l).labels = s.labels := hsettled.stems.labels.trans h.stems.labels.symm
  have hseen : (s.settled l).graph.seen = s.graph.seen :=
    hsettled.stems.seen.trans h.stems.seen.symm
  have hnext : s1.labels = (((s.settled l).born l).filterMap entryOf).reverse ++ s.labels := by
    rw [(h.step hs).stems.labels, List.filterMap_append, List.reverse_append, ← h.stems.labels]
  obtain ⟨hnone, hknown⟩ | ⟨label, id, rfl, hlookup, hentry, hid⟩ := (s.settled l).entries_born l
  · refine .inl ⟨by simp [hnext, hnone], fun label he => ?_⟩
    rw [← hsame, ← State.settled_ended hs]
    exact hknown label he
  · refine .inr ⟨label, id, rfl, hsame ▸ hlookup, by simp [hnext, hentry], ?_⟩
    rw [hseen] at hid
    obtain ⟨rfl, hunseen⟩ | ⟨rfl, htaken⟩ := hid
    · simp [hunseen]
    · have hne : (s.settled (.blank label)).graph.mint.1 ≠ label := by
        rintro he
        exact Graph.mint_not_mem _ (by rwa [he, hseen])
      simp [hne, htaken]

theorem State.Recorded.lookup_step (h : s.Recorded born) (hs : s.step l = .ok s1) {node : Term}
    (hl : s.labels.lookup label = some node) : s1.labels.lookup label = some node := by
  obtain ⟨hsame, -⟩ | ⟨other, id, rfl, hnone, hlabels, -⟩ := h.labels_step hs
  · rwa [hsame]
  · have hne : (label == other) = false := by
      simp only [beq_eq_false_iff_ne]
      rintro rfl
      simp [hl] at hnone
    rwa [hlabels, List.lookup_cons, hne]

/-- What a label stands for stays, whatever is read behind it. -/
theorem State.Recorded.lookup_run (h : s.Recorded born)
    (hrun : machine.runLexemes s read = .ok s1) {node : Term}
    (hl : s.labels.lookup label = some node) : s1.labels.lookup label = some node := by
  induction read generalizing s born with
  | nil => exact Except.ok.inj hrun ▸ hl
  | cons l read ih =>
    obtain ⟨next, hs, hrest⟩ := State.step_of_run hrun
    exact ih (h.step hs) hrest (h.lookup_step hs hl)

/-- A label that has not been read has no node. -/
theorem State.Recorded.lookup_none (h : s.Recorded born)
    (hrun : machine.runLexemes s read = .ok s1) (hread : .blank label ∉ read)
    (hl : s.labels.lookup label = none) : s1.labels.lookup label = none := by
  induction read generalizing s born with
  | nil => exact Except.ok.inj hrun ▸ hl
  | cons l read ih =>
    obtain ⟨hne, hread⟩ := not_or.1 (mt List.mem_cons.2 hread)
    obtain ⟨next, hs, hrest⟩ := State.step_of_run hrun
    refine ih (h.step hs) hrest hread ?_
    obtain ⟨hsame, -⟩ | ⟨other, id, rfl, -, hlabels, -⟩ := h.labels_step hs
    · rwa [hsame]
    · have hother : (label == other) = false := by simpa using hne
      rwa [hlabels, List.lookup_cons, hother]

/-- An id that no label has for its own was seen only if it was minted. -/
theorem State.Stems.seen_iff (h : s.Stems born) (hl : s.labels.lookup label = none) :
    label ∈ s.graph.seen ↔ label ∈ minted born := by
  rw [h.seen]
  simp only [minted, List.mem_map, List.mem_filter]
  constructor
  · rintro ⟨⟨origin, id⟩, hmem, rfl⟩
    refine ⟨(origin, id), ⟨hmem, ?_⟩, rfl⟩
    cases origin with
    | kept other =>
      -- the label would stand in the table
      obtain rfl := h.kept other id hmem
      have hentry : (id, Term.blank id) ∈ s.labels := by
        rw [h.labels, List.mem_reverse]
        exact mem_entries.2 ⟨_, id, hmem, rfl, rfl⟩
      exact absurd (List.lookup_eq_none_iff.1 hl _ hentry) (by simp)
    | _ => rfl
  · rintro ⟨birth, ⟨hmem, -⟩, rfl⟩
    exact ⟨birth, hmem, rfl⟩

/-- An id has one origin. -/
theorem State.Stems.origin_unique (h : s.Stems born) {origin other : Origin} {id : String}
    (h1 : (origin, id) ∈ born) (h2 : (other, id) ∈ born) : origin = other := by
  have hnodup : (born.map (·.2)).Nodup := h.seen ▸ h.nodup
  exact congrArg Prod.fst (List.inj_on_of_nodup_map hnodup h1 h2 rfl)

/-- A label stands for its own id from its first place on, unless the id was minted before. -/
theorem State.Recorded.first_reading (h : s.Recorded born)
    (hnew : s.labels.lookup label = none) (hlive : s.expecting ≠ .nothing)
    (hs : s.step (.blank label) = .ok s1) :
    ∃ id, s1.labels.lookup label = some (.blank id) ∧ (id = label ↔ label ∉ minted born) := by
  obtain ⟨-, hknown⟩ | ⟨other, id, he, -, hlabels, hid⟩ := h.labels_step hs
  · obtain hended | hsome := hknown label rfl
    · exact absurd hended hlive
    · simp [hnew] at hsome
  · obtain rfl := Lexeme.blank.inj he
    exact ⟨id, by simp [hlabels], hid.trans (not_congr (h.stems.seen_iff hnew))⟩

/-! ### Documents without nodes of their own -/

theorem IsFlat.tail (h : IsFlat (l :: read)) : IsFlat read :=
  ⟨fun hl => h.bracket (List.mem_cons_of_mem l hl), fun before next after he =>
    h.paren (l :: before) next after (by rw [he]; rfl)⟩

/-- No collection is being read. -/
def State.IsOutside (s : State) : Prop :=
  s.waiting = [] ∧ ∀ items, s.expecting.target? ≠ some (.item items)

/-- A collection has just been opened, and no other is being read. -/
def State.IsAtOpening (s : State) : Prop :=
  s.expecting = .term (.item []) ∧ ∃ target, s.waiting = [target] ∧ ∀ items, target ≠ .item items

theorem State.IsOutside.delivers (hw : s.waiting = []) (ht : ∀ items, target ≠ .item items)
    (hd : Delivers s term target s1) : s1.IsOutside := by
  cases hd with
  | subject mayEnd => exact ⟨hw, by cases mayEnd <;> simp [State.expect, Expecting.target?]⟩
  | object subject predicate => exact ⟨hw, by simp [State.expect, Expecting.target?]⟩
  | item items => exact absurd rfl (ht items)

theorem waiting_of_nodeOfLabel {node : Term} {s0 : State}
    (h : s.nodeOfLabel label = .ok (node, s0)) : s0.waiting = s.waiting := by
  simp only [State.nodeOfLabel] at h
  repeat' split at h
  all_goals cases h <;> rfl

/-- Outside of collections a lexeme mints nothing where nothing has been minted. -/
theorem State.IsOutside.moves (h : s.IsOutside) (hrecorded : s.Recorded born)
    (hborn : minted born = []) (hl : l ≠ .punct .openBracket) (hm : Moves s l s1) :
    minted (s.born l) = [] ∧ (s1.IsOutside ∨ l = .punct .openParen ∧ s1.IsAtOpening) := by
  obtain ⟨hw, hitem⟩ := h
  cases hm with
  | ended he => exact ⟨by simp [State.born, he, minted], .inl ⟨hw, hitem⟩⟩
  | turn hl hseen hids htarget hend =>
    exact ⟨by rw [State.born_of_isSimple hl]; rfl, .inl ⟨hw, fun items he =>
      hitem items (htarget items he)⟩⟩
  | deliver hl ht hterm hd =>
    refine ⟨by rw [State.born_of_isSimple hl]; rfl, .inl (State.IsOutside.delivers hw ?_ hd)⟩
    rintro items rfl
    exact hitem items ht
  | @label label target node s0 _ ht hnode hd =>
    refine ⟨?_, .inl (State.IsOutside.delivers ((waiting_of_nodeOfLabel hnode).trans hw) ?_ hd)⟩
    · cases hl : s.labels.lookup label with
      | some node => simp [State.born, ht, hl, minted]
      | none =>
        have hunseen : s.graph.hasSeen label = false := by
          simpa [hborn, Graph.hasSeen] using hrecorded.stems.seen_iff hl
        simp [State.born, ht, hl, hunseen, minted, Origin.isMinted]
    · rintro items rfl
      exact hitem items (by rw [ht]; rfl)
  | openBracket => exact absurd rfl hl
  | @openParen target ht hroom =>
    refine ⟨by simp [State.born, ht, minted], .inr ⟨rfl, rfl, target, by rw [hw], ?_⟩⟩
    rintro items rfl
    exact hitem items (by rw [ht]; rfl)
  | closeBracket _ hwaiting => simp [hw] at hwaiting
  | closeParen _ hwaiting => simp [hw] at hwaiting

/-- A collection that ends as soon as it is opened mints nothing. -/
theorem State.IsAtOpening.moves (h : s.IsAtOpening) (hm : Moves s (.punct .closeParen) s1) :
    minted (s.born (.punct .closeParen)) = [] ∧ s1.IsOutside := by
  obtain ⟨he, target, hw, ht⟩ := h
  have hborn : s.born (.punct .closeParen) = [] := by simp [State.born, he, Graph.mintMany]
  refine ⟨by rw [hborn]; rfl, ?_⟩
  cases hm with
  | ended hended => simp [he] at hended
  | turn hl => simp [Lexeme.isSimple] at hl
  | deliver hl => simp [Lexeme.isSimple] at hl
  | @closeParen items other waiting _ htarget hwaiting hd =>
    obtain ⟨rfl, rfl⟩ := List.cons.inj (hw.symm.trans hwaiting)
    exact State.IsOutside.delivers rfl ht hd

theorem minted_append (born later : List (Origin × String)) :
    minted (born ++ later) = minted born ++ minted later := by
  simp [minted]

/-- A document without brackets and items mints nothing. -/
theorem State.Recorded.minted_run (h : s.Recorded born) (hborn : minted born = [])
    (hplace : s.IsOutside ∨
      s.IsAtOpening ∧ ∀ l after, read = l :: after → l = .punct .closeParen)
    (hflat : IsFlat read) (hrun : machine.runLexemes s read = .ok s1) :
    minted (born ++ births s read) = [] := by
  induction read generalizing s born with
  | nil => simpa [births] using hborn
  | cons l read ih =>
    obtain ⟨next, hstep, hrest⟩ := State.step_of_run hrun
    obtain ⟨hsettled, hmoves⟩ := State.moves_of_step hstep
    have hl : l ≠ .punct .openBracket := fun he => hflat.bracket (he ▸ List.mem_cons_self)
    have hnext : minted ((s.settled l).born l) = [] ∧ (next.IsOutside ∨
        next.IsAtOpening ∧ ∀ l after, read = l :: after → l = .punct .closeParen) := by
      obtain houtside | ⟨hopening, hclose⟩ := hplace
      · have hstill : (s.settled l).IsOutside := by
          obtain hsame | ⟨literal, value, target, he, hd⟩ := hsettled
          · rwa [hsame]
          · refine State.IsOutside.delivers houtside.1 ?_ hd
            rintro items rfl
            exact houtside.2 items (by rw [he]; rfl)
        obtain ⟨hnone, hout | ⟨rfl, hopened⟩⟩ := hstill.moves (h.settled hstep) hborn hl hmoves
        · exact ⟨hnone, .inl hout⟩
        · refine ⟨hnone, .inr ⟨hopened, fun other after he => ?_⟩⟩
          exact hflat.paren [] other after (by rw [he]; rfl)
      · obtain rfl := hclose l read rfl
        have hsame : s.settled (.punct .closeParen) = s := by
          simp [State.settled, hopening.1]
        rw [hsame] at hmoves ⊢
        obtain ⟨hnone, hout⟩ := hopening.moves hmoves
        exact ⟨hnone, .inl hout⟩
    have hlater := ih (h.step hstep) (by rw [minted_append, hborn, hnext.1]; rfl) hnext.2
      hflat.tail hrest
    simpa [births, hstep] using hlater

theorem State.Stems.own_of_minted (h : s.Stems born) (hborn : minted born = []) {node : Term}
    (hl : s.labels.lookup label = some node) : node = .blank label := by
  obtain ⟨origin, id, hmem, hlabel, rfl⟩ := h.birth hl
  have hminted : origin.isMinted = false := by
    by_contra hm
    have hid : id ∈ minted born := List.mem_map.2
      ⟨(origin, id), List.mem_filter.2 ⟨hmem, by simpa using hm⟩, rfl⟩
    simp [hborn] at hid
  cases origin with
  | kept other =>
    obtain rfl := Option.some.inj hlabel
    rw [h.kept other id hmem]
  | _ => simp [Origin.isMinted] at hminted

/-! ### Documents -/

/-- What a label stands for is settled at its first place. -/
theorem State.Recorded.first_place (h : s.Recorded born) (hlive : s.expecting ≠ .nothing)
    (hnew : s.labels.lookup label = none) {before after : List Lexeme} (heof : .eof ∉ before)
    (hnot : .blank label ∉ before)
    (hrun : machine.runLexemes s (before ++ .blank label :: after) = .ok s1) :
    ∃ id, s1.labels.lookup label = some (.blank id) ∧
      (id = label ↔ label ∉ minted (born ++ births s before)) := by
  obtain ⟨s0, hbefore, hrest⟩ := machine.between_of_runLexemes hrun
  obtain ⟨next, hstep, hafter⟩ := State.step_of_run hrest
  have h0 := h.run hbefore
  obtain ⟨id, hlookup, hid⟩ := h0.first_reading (h.lookup_none hbefore hnot hnew)
    (State.live_of_run hbefore heof hlive) hstep
  exact ⟨id, (h0.step hstep).lookup_run hafter hlookup, hid⟩

/-- At every point of a document the reader has given its ids to brackets, cells and labels, all
different ids. Each label that has been read has a node that is given to nothing else and that it
keeps. It is the label itself unless that id was minted before the first place of the label, so
that a document without brackets and items keeps all its labels. -/
theorem labels_scoped {text : String} {base : Option Iri} {read rest : List Lexeme} {s : State}
    (htext : (Token.scanAll text).tokens.map (·.lexeme) = read ++ rest)
    (hrun : machine.runLexemes { graph := { base } } read = .ok s) :
    let start : State := { graph := { base } }
    s.graph.seen = (births start read).map (·.2) ∧ s.graph.seen.Nodup ∧
    (∀ label, .blank label ∈ read → ∃ id, s.labels.lookup label = some (.blank id) ∧
      (∀ origin, (origin, id) ∈ births start read → origin.label? = some label) ∧
      ∀ more next, machine.runLexemes s more = .ok next →
        next.labels.lookup label = some (.blank id)) ∧
    (∀ label other node, s.labels.lookup label = some node → s.labels.lookup other = some node →
      label = other) ∧
    (∀ before label after, read = before ++ .blank label :: after → .blank label ∉ before →
      (s.labels.lookup label = some (.blank label) ↔ label ∉ minted (births start before))) ∧
    (IsFlat read → ∀ label, .blank label ∈ read →
      s.labels.lookup label = some (.blank label)) := by
  intro start
  have hstart : start.Recorded [] := recorded_start base
  have hs : s.Recorded (births start read) := hstart.run hrun
  have hfirst : ∀ before label after, read = before ++ .blank label :: after →
      .blank label ∉ before → ∃ id, s.labels.lookup label = some (.blank id) ∧
        (id = label ↔ label ∉ minted (births start before)) := by
    rintro before label after rfl hnot
    have heof : .eof ∉ before := by
      rw [List.append_assoc] at htext
      exact Token.eof_not_mem_scanFrom .start false text.toList htext
    exact hstart.first_place (by simp [start]) rfl heof hnot hrun
  refine ⟨hs.stems.seen, hs.stems.nodup, fun label hmem => ?_, fun label other node h1 h2 => ?_,
    fun before label after hsplit hnot => ?_, fun hflat label hmem => ?_⟩
  · obtain ⟨before, after, hsplit, hnot⟩ := List.eq_append_cons_of_mem hmem
    obtain ⟨id, hlookup, -⟩ := hfirst before label after hsplit hnot
    refine ⟨id, hlookup, fun origin horigin => ?_, fun more next hmore =>
      hs.lookup_run hmore hlookup⟩
    obtain ⟨other, found, hfound, hlabel, he⟩ := hs.stems.birth hlookup
    obtain rfl := Term.blank.inj he
    rw [hs.stems.origin_unique horigin hfound, hlabel]
  · obtain ⟨origin, id, hmem, hlabel, rfl⟩ := hs.stems.birth h1
    obtain ⟨origin', id', hmem', hlabel', he⟩ := hs.stems.birth h2
    obtain rfl := Term.blank.inj he
    rw [hs.stems.origin_unique hmem hmem', hlabel'] at hlabel
    exact (Option.some.inj hlabel).symm
  · obtain ⟨id, hlookup, hid⟩ := hfirst before label after hsplit hnot
    rw [hlookup, ← hid]
    simp
  · obtain ⟨before, after, hsplit, hnot⟩ := List.eq_append_cons_of_mem hmem
    obtain ⟨id, hlookup, -⟩ := hfirst before label after hsplit hnot
    have hnone : minted (births start read) = [] := by
      refine hstart.minted_run rfl (.inl ⟨rfl, ?_⟩) hflat hrun
      simp [start, Expecting.target?]
    rw [hlookup, hs.stems.own_of_minted hnone hlookup]

/-- A bracket takes the id of a label, and the one that stands in for it takes that of another. -/
theorem labels_scoped_clash :
    let text := "[] <urn:p> _:auto0 . _:auto1 <urn:p> (_:auto0) , _:auto2 , _:b ."
    ∃ read s, machine.runLexemes { graph := {} } read = .ok s ∧
      (Token.scanAll text).tokens.map (·.lexeme) = read ++ [] ∧
      births { graph := {} } read =
        [(.bracket, "auto0"), (.standIn "auto0", "auto1"), (.standIn "auto1", "auto2"),
          (.cell, "auto3"), (.standIn "auto2", "auto4"), (.kept "b", "b")] ∧
      s.graph.seen = ["auto0", "auto1", "auto2", "auto3", "auto4", "b"] ∧
      ∀ more next, machine.runLexemes s more = .ok next →
        next.labels.lookup "auto0" = some (.blank "auto1") := by
  intro text
  let start : State := { graph := {} }
  let read := (Token.scanAll text).tokens.map (·.lexeme)
  have hsome : ((machine.runLexemes start read).toOption.map fun s =>
      s.labels.lookup "auto0") = some (some (.blank "auto1")) := by decide +kernel
  have hbirths : births start read =
      [(.bracket, "auto0"), (.standIn "auto0", "auto1"), (.standIn "auto1", "auto2"),
        (.cell, "auto3"), (.standIn "auto2", "auto4"), (.kept "b", "b")] := by decide +kernel
  have hmem : .blank "auto0" ∈ read := by decide +kernel
  cases hrun : machine.runLexemes start read with
  | error refusal => simp [hrun, Except.toOption] at hsome
  | ok s =>
    have htext : (Token.scanAll text).tokens.map (·.lexeme) = read ++ [] :=
      (List.append_nil _).symm
    obtain ⟨hseen, -, hlabels, -⟩ := labels_scoped htext hrun
    obtain ⟨id, hlookup, -, hstays⟩ := hlabels "auto0" hmem
    have hid : s.labels.lookup "auto0" = some (.blank "auto1") := by
      simpa [hrun, Except.toOption] using hsome
    rw [hid] at hlookup
    obtain rfl := Term.blank.inj (Option.some.inj hlookup)
    refine ⟨read, s, hrun, htext, hbirths, ?_, hstays⟩
    have hseen' : s.graph.seen = (births start read).map (·.2) := hseen
    rw [hseen', hbirths]
    rfl

end Rdf.Turtle

import Rdf.Proofs.Isomorphism.Renaming
import Rdf.Proofs.Turtle.Statements

/-!
What a document means up to the names of its nodes.

Another interpretation of the labels and the marks of a document renames the nodes of its triples.
The one that the reader takes gives no two of them the same name, so that the graph that it reads is
isomorphic to the one that the document means.
-/

namespace Rdf.Turtle

variable {f label node : String → String} {iri : Name → Iri} {part : Part} {subject : Term}

/-- The interpretation renames what stands for itself. -/
structure Renames (f label node : String → String) (labels marks : List String) : Prop where
  labels : ∀ l ∈ labels, label l = f l
  marks : ∀ m ∈ marks, node m = f m

theorem Renames.left {labels labels' marks marks' : List String}
    (h : Renames f label node (labels ++ labels') (marks ++ marks')) :
    Renames f label node labels marks :=
  ⟨fun l hl => h.labels l (List.mem_append_left _ hl),
    fun m hm => h.marks m (List.mem_append_left _ hm)⟩

theorem Renames.right {labels labels' marks marks' : List String}
    (h : Renames f label node (labels ++ labels') (marks ++ marks')) :
    Renames f label node labels' marks' :=
  ⟨fun l hl => h.labels l (List.mem_append_right _ hl),
    fun m hm => h.marks m (List.mem_append_right _ hm)⟩

theorem chainTriples_rename (cells : List (Term × Term)) :
    chainTriples (cells.map fun cell => (cell.1.rename f, cell.2.rename f)) =
      (chainTriples cells).map (Triple.rename f) := by
  induction cells with
  | nil => rfl
  | cons cell cells ih =>
    have hnext : ((cells.map fun cell => (cell.1.rename f, cell.2.rename f)).map Prod.fst).headD
        (.iri Vocabulary.nil) = ((cells.map Prod.fst).headD (.iri Vocabulary.nil)).rename f := by
      cases cells <;> rfl
    simp only [List.map_cons, chainTriples, hnext, ih]
    rfl

namespace Phrase

theorem node_rename (phrase : Phrase String .resource)
    (h : Renames f label node phrase.labels phrase.marks) :
    phrase.node ⟨iri, label, node⟩ = (phrase.node ⟨iri, id, id⟩).rename f := by
  cases phrase with
  | name n => rfl
  | blank l => exact congrArg Term.blank (h.labels l (by simp [labels]))
  | emptyBracket mark => exact congrArg Term.blank (h.marks mark (by simp [marks]))
  | bracket mark content => exact congrArg Term.blank (h.marks mark (by simp [marks]))
  | collection items =>
    cases hcells : items.cells with
    | nil => simp [Phrase.node, hcells, Term.rename]
    | cons cell cells =>
      have hcell := h.marks cell (by simp [marks, hcells])
      simp [Phrase.node, hcells, Term.rename, hcell]

theorem term_rename (phrase : Phrase String .object)
    (h : Renames f label node phrase.labels phrase.marks) :
    phrase.term ⟨iri, label, node⟩ = (phrase.term ⟨iri, id, id⟩).rename f := by
  cases phrase with
  | resource phrase => exact phrase.node_rename h
  | constant literal =>
    have hliteral : literal.literal ⟨iri, label, node⟩ =
        literal.literal (⟨iri, id, id⟩ : Interpretation String) := by
      cases literal with
      | string delimiter value suffix => cases suffix <;> rfl
      | _ => rfl
    simp [term, hliteral, Term.rename]

theorem itemTerms_rename (phrase : Phrase String part)
    (h : Renames f label node phrase.labels phrase.marks) :
    phrase.itemTerms ⟨iri, label, node⟩ =
      (phrase.itemTerms ⟨iri, id, id⟩).map (Term.rename f) := by
  induction phrase with
  | item cell first rest _ ih =>
    have hfirst := @term_rename f label node iri first h.left
    simp [itemTerms, hfirst, ih h.right]
  | _ => rfl

theorem triples_rename (phrase : Phrase String part) (predicate : Term)
    (h : Renames f label node phrase.labels phrase.marks) :
    phrase.triples ⟨iri, label, node⟩ (subject.rename f) predicate =
      (phrase.triples ⟨iri, id, id⟩ subject predicate).map (Triple.rename f) := by
  induction phrase generalizing subject predicate with
  | name _ | blank _ | emptyBracket _ | constant _ | noItems | noObjects | noMore => rfl
  | bracket mark content ih =>
    have hmark : Term.blank (node mark) = (Term.blank mark).rename f :=
      congrArg Term.blank (h.marks mark List.mem_cons_self)
    have hcontent : Renames f label node content.labels content.marks :=
      ⟨h.labels, fun m hm => h.marks m (List.mem_cons_of_mem mark hm)⟩
    simp only [triples, hmark]
    exact ih predicate hcontent
  | collection items ih =>
    have hitems : Renames f label node items.labels items.marks :=
      ⟨h.labels, fun m hm => h.marks m (List.mem_append_left _ hm)⟩
    have hcells : (items.cells.map fun cell => Term.blank (node cell)) =
        (items.cells.map fun cell => Term.blank cell).map (Term.rename f) := by
      rw [List.map_map]
      exact List.map_congr_left fun cell hcell =>
        congrArg Term.blank (h.marks cell (List.mem_append_right _ hcell))
    simp only [triples, List.map_append, ih predicate hitems, hcells,
      items.itemTerms_rename hitems, List.zip_map]
    exact congrArg (_ ++ ·) (chainTriples_rename _)
  | resource phrase ih => exact ih predicate h
  | item cell first rest ihFirst ihRest =>
    simp only [triples, ihFirst predicate h.left, ihRest predicate h.right, List.map_append]
  | nextObject first rest ihFirst ihRest =>
    simp only [triples, ihFirst predicate h.left, ihRest predicate h.right,
      first.term_rename h.left, List.map_append, List.map_cons]
    rfl
  | predicates verb first rest more ihFirst ihRest ihMore =>
    have hverb : verb.iri ⟨iri, label, node⟩ = verb.iri (⟨iri, id, id⟩ : Interpretation String) := by
      cases verb <;> rfl
    simp only [triples, hverb, ihFirst _ h.left.left, ihRest _ h.left.right, ihMore _ h.right,
      first.term_rename h.left.left, List.map_append, List.map_cons]
    rfl
  | semicolon rest ih => exact ih predicate h
  | nextPredicates content ih => exact ih predicate h

/-- Only the objects behind a first one depend on the predicate. -/
theorem triples_predicate {i : Interpretation String} (phrase : Phrase String part)
    (hpart : part ≠ .objects) (predicate predicate' : Term) :
    phrase.triples i subject predicate = phrase.triples i subject predicate' := by
  induction phrase generalizing subject with
  | name _ | blank _ | emptyBracket _ | constant _ | noItems | noObjects | noMore
  | predicates _ _ _ _ => rfl
  | bracket mark content ih => exact ih (by simp)
  | collection items ih => simp only [triples, ih (by simp)]
  | resource phrase ih => exact ih (by simp)
  | item cell first rest ihFirst ihRest =>
    simp only [triples, ihFirst (by simp), ihRest (by simp)]
  | nextObject _ _ _ _ => exact (hpart rfl).elim
  | semicolon rest ih => exact ih (by simp)
  | nextPredicates content ih => exact ih (by simp)

end Phrase

/-! ### Documents -/

variable {scope : Scope}

theorem Statement.added_rename (statement : Statement String)
    (h : Renames f label node statement.labels statement.marks) :
    statement.added scope label node = (statement.added scope id id).map (Triple.rename f) := by
  cases statement with
  | space _ _ _ _ | base _ _ _ => rfl
  | triples subject content =>
    have hnode := @Phrase.node_rename f label node scope.iri subject h.left
    let top := subject.node ⟨scope.iri, id, id⟩
    have hsubject := @Phrase.triples_rename f label node scope.iri _ top subject top h.left
    have hcontent := @Phrase.triples_rename f label node scope.iri _ top content top h.right
    rw [added, added, hnode, List.map_append, ← hsubject, ← hcontent,
      subject.triples_predicate (by simp) (top.rename f) top,
      content.triples_predicate (by simp) (top.rename f) top]
  | lone mark content =>
    have hmark : Term.blank (node mark) = (Term.blank mark).rename f :=
      congrArg Term.blank (h.marks mark List.mem_cons_self)
    have hcontent := @Phrase.triples_rename f label node scope.iri _ (.blank mark) content
      (.blank mark) ⟨h.labels, fun m hm => h.marks m (List.mem_cons_of_mem mark hm)⟩
    rw [added, hmark, content.triples_predicate (by simp) _ (.blank mark)]
    exact hcontent

theorem Document.triples_rename (document : Document String)
    (h : Renames f label node document.labels document.marks) :
    document.triples label node scope = (document.triples id id scope).map (Triple.rename f) := by
  induction document generalizing scope with
  | nil => rfl
  | cons statement document ih =>
    simp only [labels, marks, List.flatMap_cons] at h ih
    simp only [triples, statement.added_rename h.left, ih h.right, List.map_append]

/-- The nodes of the triples of a document are its labels and its marks. -/
theorem Document.mem_of_mem_blankNodes (document : Document String) {nodeId : String}
    (h : nodeId ∈ blankNodes (document.triples id id scope)) :
    nodeId ∈ document.labels ∨ nodeId ∈ document.marks := by
  by_cases hknown : nodeId ∈ document.labels ∨ nodeId ∈ document.marks
  · exact hknown
  · -- moving any other node would change no triple, since it is not in the document
    obtain ⟨t, ht, hid⟩ := mem_blankNodes.1 h
    let move (other : String) : String := if other = nodeId then other ++ "0" else other
    have hmove : Renames move id id document.labels document.marks := by
      constructor
      · intro l hl
        have hne : l ≠ nodeId := fun he => hknown (.inl (he ▸ hl))
        simp [move, hne]
      · intro m hm
        have hne : m ≠ nodeId := fun he => hknown (.inr (he ▸ hm))
        simp [move, hne]
    have hsame := @Document.triples_rename move id id scope document hmove
    have hfixed : t.rename move = t :=
      List.map_inj_left.1 (hsame.symm.trans (List.map_id _).symm) t ht
    have hids := Triple.blankIds_rename move t
    rw [hfixed] at hids
    have hstays : move nodeId = nodeId :=
      List.map_inj_left.1 (hids.symm.trans (List.map_id _).symm) nodeId hid
    have hlength := congrArg String.length hstays
    simp [move] at hlength

/-! ### Names that the reader gives -/

variable {s : State} {fresh : List (String × String)}

/-- The id that the reader has given to a label. -/
def State.labelId (s : State) (l : String) : String :=
  ((s.labels.lookup l).bind Term.blankId?).getD l

/-- The id that the reader has given to a mark. -/
def markId (fresh : List (String × String)) (m : String) : String := (fresh.lookup m).getD m

/-- The id that the reader has given to what stands for itself. -/
def givenId (s : State) (fresh : List (String × String)) (nodeId : String) : String :=
  if nodeId ∈ fresh.map (·.1) then markId fresh nodeId else s.labelId nodeId

theorem mem_of_lookup {β : Type} {entries : List (String × β)} {key : String} {value : β}
    (h : entries.lookup key = some value) : (key, value) ∈ entries := by
  obtain ⟨before, behind, rfl, -⟩ := List.lookup_eq_some_iff.1 h
  simp

theorem Named.eq_labelId (h : Named s fresh) {l : String} {given : Term}
    (hl : s.labels.lookup l = some given) : given = .blank (s.labelId l) := by
  have hgiven : given ∈ givenNodes s fresh :=
    List.mem_append_left _ (List.mem_map.2 ⟨_, mem_of_lookup hl, rfl⟩)
  obtain ⟨nodeId, -, rfl⟩ := h.seen given hgiven
  simp [State.labelId, hl, Term.blankId?]

theorem Named.agrees (h : Named s fresh) (hmarks : (fresh.map (·.1)).Nodup) (iri : Name → Iri) :
    Agrees ⟨iri, s.labelId, markId fresh⟩ s fresh := by
  refine ⟨fun hl => h.eq_labelId hl, fun entry hentry => ?_⟩
  simp [markId, lookup_of_mem hmarks hentry]

/-- No two labels or marks have been given the same id. -/
theorem Named.givenId_injOn (h : Named s fresh) (hmarks : (fresh.map (·.1)).Nodup)
    {labels : List String} (hused : ∀ l ∈ labels, (s.labels.lookup l).isSome) :
    Set.InjOn (givenId s fresh) {nodeId | nodeId ∈ labels ∨ nodeId ∈ fresh.map (·.1)} := by
  let entries := s.labels ++ fresh.map fun entry => (entry.1, Term.blank entry.2)
  have hnodup : (entries.map (·.2)).Nodup := by
    simpa [entries, givenNodes, Function.comp_def] using h.nodup
  have hmem : ∀ nodeId, nodeId ∈ labels ∨ nodeId ∈ fresh.map (·.1) →
      (nodeId, Term.blank (givenId s fresh nodeId)) ∈ entries := by
    intro nodeId hid
    by_cases hmark : nodeId ∈ fresh.map (·.1)
    · obtain ⟨entry, hentry, rfl⟩ := List.mem_map.1 hmark
      refine List.mem_append_right _ (List.mem_map.2 ⟨entry, hentry, ?_⟩)
      simp only [givenId, if_pos hmark, markId, lookup_of_mem hmarks hentry, Option.getD_some]
    · obtain ⟨given, hgiven⟩ := Option.isSome_iff_exists.1 (hused nodeId (hid.resolve_right hmark))
      have heq := h.eq_labelId hgiven
      rw [heq] at hgiven
      rw [givenId, if_neg hmark]
      exact List.mem_append_left _ (mem_of_lookup hgiven)
  intro first hfirst second hsecond heq
  have hpair := List.inj_on_of_nodup_map hnodup (hmem first hfirst) (hmem second hsecond)
    (congrArg Term.blank heq)
  exact (Prod.mk.inj hpair).1

/-- The triples that are read from a document are those that the document means, renamed. No label
is a mark in it, and no mark comes twice. -/
theorem Document.runs_renamed (document : Document String) (base : Option Iri)
    (hscope : document.InScope ⟨base, []⟩) (hproper : ∀ l ∈ document.lexemes, l.Proper)
    (hshallow : document.IsShallow) (hmarks : document.marks.Nodup)
    (hlabels : ∀ l ∈ document.labels, l ∉ document.marks)
    (hformed : ∀ t ∈ document.triples id id ⟨base, []⟩, t.WellFormed) :
    ∃ (s : State) (f : String → String),
      machine.runLexemes { graph := { base } } (document.lexemes ++ [.eof]) =
          .ok (s.expect .nothing) ∧
        Set.InjOn f {nodeId | nodeId ∈ document.labels ∨ nodeId ∈ document.marks} ∧
        (∀ t, t ∈ s.graph.triples ↔ ∃ u ∈ document.triples id id ⟨base, []⟩, u.rename f = t) ∧
        Scope.ofGraph s.graph = document.scopeAfter ⟨base, []⟩ := by
  obtain ⟨s, fresh, hrun, houtcome⟩ := document.runs base hscope hproper hshallow
  have hnamed : Named s fresh := houtcome.atStatement.named
  rw [← houtcome.marks] at hmarks hlabels
  have hrenames : Renames (givenId s fresh) s.labelId (markId fresh) document.labels
      document.marks := by
    refine ⟨fun l hl => ?_, fun m hm => ?_⟩
    · rw [givenId, if_neg (hlabels l hl)]
    · rw [← houtcome.marks] at hm
      rw [givenId, if_pos hm]
  have htriples := houtcome.triples ⟨Scope.iri ⟨base, []⟩, _, _⟩ (hnamed.agrees hmarks _)
  rw [document.triples_rename hrenames] at htriples
  have hall : ∀ t ∈ (document.triples id id ⟨base, []⟩).map (Triple.rename (givenId s fresh)),
      t.WellFormed := by
    intro t ht
    obtain ⟨u, hu, rfl⟩ := List.mem_map.1 ht
    exact (hformed u hu).rename _
  have hdistinct : s.graph.triples =
      ((document.triples id id ⟨base, []⟩).map (Triple.rename (givenId s fresh))).eraseDups := by
    have hempty : ({ base } : Graph).triples = ({} : Graph).triples := rfl
    rw [htriples, ← Graph.triples_addAll hall]
    exact Graph.addAll_congr hempty _
  refine ⟨s, givenId s fresh, hrun, ?_, fun t => ?_, houtcome.scope⟩
  · rw [← houtcome.marks]
    exact hnamed.givenId_injOn hmarks houtcome.used
  · rw [hdistinct, List.mem_eraseDups, List.mem_map]

/-- The graph that is read from a document is the one that the document means, up to the names of
nodes. No label is a mark in it, and no mark comes twice. -/
theorem Document.runs_isomorphic (document : Document String) (base : Option Iri)
    (hscope : document.InScope ⟨base, []⟩) (hproper : ∀ l ∈ document.lexemes, l.Proper)
    (hshallow : document.IsShallow) (hmarks : document.marks.Nodup)
    (hlabels : ∀ l ∈ document.labels, l ∉ document.marks)
    (hformed : ∀ t ∈ document.triples id id ⟨base, []⟩, t.WellFormed) :
    ∃ s : State, machine.runLexemes { graph := { base } } (document.lexemes ++ [.eof]) =
        .ok (s.expect .nothing) ∧
      Isomorphic (document.triples id id ⟨base, []⟩) s.graph.triples ∧
      Scope.ofGraph s.graph = document.scopeAfter ⟨base, []⟩ := by
  obtain ⟨s, f, hrun, hinj, hmem, hscopeAfter⟩ :=
    document.runs_renamed base hscope hproper hshallow hmarks hlabels hformed
  refine ⟨s, hrun, ⟨f, .of_injOn (hinj.mono fun nodeId hid => ?_) hmem⟩, hscopeAfter⟩
  exact document.mem_of_mem_blankNodes hid

end Rdf.Turtle

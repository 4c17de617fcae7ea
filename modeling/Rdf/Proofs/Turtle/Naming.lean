import Rdf.Proofs.Graph.Insertion
import Rdf.Proofs.Graph.Minting
import Rdf.Proofs.Turtle.Meaning
import Rdf.Turtle.Reader

/-!
How the reader of Turtle names nodes.

The reader gives ids to the labels of a document and mints ids for the marks of its phrases.
`Named` holds all along: no id is given twice, and each of them is seen by the graph, so that none
is minted again.
-/

namespace Rdf.Turtle

variable {ν : Type} {s s1 s2 : State} {fresh new : List (ν × String)} {i : Interpretation ν}

/-! ### What reading keeps -/

/-- The scope stays the same, and labels keep their nodes. -/
structure Kept (s s1 : State) : Prop where
  base : s1.graph.base = s.graph.base
  spaces : s1.graph.namespaces = s.graph.namespaces
  labels : ∀ {label node}, s.labels.lookup label = some node → s1.labels.lookup label = some node

theorem Kept.refl (s : State) : Kept s s := ⟨rfl, rfl, id⟩

theorem Kept.trans (h1 : Kept s s1) (h2 : Kept s1 s2) : Kept s s2 :=
  ⟨h2.base.trans h1.base, h2.spaces.trans h1.spaces, fun h => h2.labels (h1.labels h)⟩

theorem Kept.iri?_eq (h : Kept s s1) (lexeme : Lexeme) :
    State.iri? s1.graph lexeme = State.iri? s.graph lexeme := by
  cases lexeme <;> simp [State.iri?, State.expand, Graph.namespace?, h.base, h.spaces]

/-- The nodes that have been given to labels and to marks. -/
def givenNodes (s : State) (fresh : List (ν × String)) : List Term :=
  s.labels.map (·.2) ++ fresh.map fun entry => .blank entry.2

/-- The nodes given so far are different, and their ids are seen. -/
structure Named (s : State) (fresh : List (ν × String)) : Prop where
  nodup : (givenNodes s fresh).Nodup
  seen : ∀ node ∈ givenNodes s fresh, ∃ id ∈ s.graph.seen, node = .blank id

/-- What labels and marks stand for is what the reader has given to them. -/
structure Agrees (i : Interpretation ν) (s : State) (fresh : List (ν × String)) : Prop where
  labels : ∀ {label node}, s.labels.lookup label = some node → node = .blank (i.label label)
  nodes : ∀ entry ∈ fresh, entry.2 = i.node entry.1

theorem Agrees.of_kept (h : Agrees i s1 (fresh ++ new)) (hk : Kept s s1) : Agrees i s fresh :=
  ⟨fun hl => h.labels (hk.labels hl), fun entry he => h.nodes entry (List.mem_append_left new he)⟩

/-! ### Graphs -/

theorem seen_see (g : Graph) (id : String) : g.seen ⊆ (g.see id).seen ∧ id ∈ (g.see id).seen := by
  by_cases h : id ∈ g.seen <;> simp [Graph.see, Graph.hasSeen, h]

theorem seen_foldl_see (g : Graph) (ids : List String) : g.seen ⊆ (ids.foldl Graph.see g).seen := by
  induction ids generalizing g with
  | nil => exact fun _ h => h
  | cons id ids ih => exact fun _ h => ih (g.see id) ((seen_see g id).1 h)

theorem seen_add (g : Graph) (t : Triple) : g.seen ⊆ (g.add t).seen := by
  by_cases h : g.has t = true
  · simp [Graph.add, h]
  · simpa [Graph.add, h] using seen_foldl_see g t.blankIds

theorem scope_foldl_see (g : Graph) (ids : List String) :
    (ids.foldl Graph.see g).base = g.base ∧ (ids.foldl Graph.see g).namespaces = g.namespaces := by
  induction ids generalizing g with
  | nil => exact ⟨rfl, rfl⟩
  | cons id ids ih =>
    have hsee : (g.see id).base = g.base ∧ (g.see id).namespaces = g.namespaces := by
      by_cases h : g.hasSeen id = true <;> simp [Graph.see, h]
    exact ⟨(ih _).1.trans hsee.1, (ih _).2.trans hsee.2⟩

theorem scope_add (g : Graph) (t : Triple) :
    (g.add t).base = g.base ∧ (g.add t).namespaces = g.namespaces := by
  by_cases h : g.has t = true
  · simp [Graph.add, h]
  · simpa [Graph.add, h] using scope_foldl_see g t.blankIds

theorem seen_addAll (g : Graph) (ts : List Triple) : g.seen ⊆ (g.addAll ts).seen := by
  induction ts generalizing g with
  | nil => exact fun _ h => h
  | cons t ts ih => exact fun _ h => ih (g.add t) (seen_add g t h)

theorem scope_addAll (g : Graph) (ts : List Triple) :
    (g.addAll ts).base = g.base ∧ (g.addAll ts).namespaces = g.namespaces := by
  induction ts generalizing g with
  | nil => exact ⟨rfl, rfl⟩
  | cons t ts ih =>
    have h := scope_add g t
    exact ⟨(ih _).1.trans h.1, (ih _).2.trans h.2⟩

/-! ### Ids that are given -/

/-- The graph may see more, as long as the labels stay. -/
theorem Named.of_seen (h : Named s fresh) (hlabels : s1.labels = s.labels)
    (hseen : s.graph.seen ⊆ s1.graph.seen) : Named s1 fresh := by
  have hgiven : givenNodes s1 fresh = givenNodes s fresh := by rw [givenNodes, hlabels, givenNodes]
  refine ⟨hgiven ▸ h.nodup, fun node hnode => ?_⟩
  obtain ⟨id, hid, rfl⟩ := h.seen node (hgiven ▸ hnode)
  exact ⟨id, hseen hid, rfl⟩

/-- An id that is not seen has not been given to anything. -/
theorem Named.not_mem (h : Named s fresh) {id : String} (hid : id ∉ s.graph.seen) :
    Term.blank id ∉ givenNodes s fresh := by
  intro hmem
  obtain ⟨other, hother, he⟩ := h.seen _ hmem
  exact hid (Term.blank.inj he ▸ hother)

theorem Named.mint (h : Named s fresh) (mark : ν) :
    Named { s with graph := s.graph.mint.2 } (fresh ++ [(mark, s.graph.mint.1)]) := by
  have hnew := h.not_mem (Graph.mint_not_mem s.graph)
  have hgiven : givenNodes { s with graph := s.graph.mint.2 } (fresh ++ [(mark, s.graph.mint.1)]) =
      givenNodes s fresh ++ [.blank s.graph.mint.1] := by
    simp [givenNodes]
  constructor
  · rw [hgiven, List.nodup_append]
    refine ⟨h.nodup, by simp, fun a ha b hb he => ?_⟩
    obtain rfl : b = .blank s.graph.mint.1 := by simpa using hb
    exact hnew (he ▸ ha)
  · intro node hnode
    rw [hgiven] at hnode
    cases List.mem_append.1 hnode with
    | inl hold =>
      obtain ⟨id, hid, rfl⟩ := h.seen node hold
      exact ⟨id, List.mem_append_left _ hid, rfl⟩
    | inr hlast =>
      exact ⟨s.graph.mint.1, List.mem_append_right _ (by simp [Graph.mint]), by simpa using hlast⟩

theorem Kept.mint (s : State) : Kept s { s with graph := s.graph.mint.2 } := ⟨rfl, rfl, id⟩

theorem Named.mintMany (h : Named s fresh) (marks : List ν) :
    Kept s { s with graph := (s.graph.mintMany marks.length).2 } ∧
      (s.graph.mintMany marks.length).1.length = marks.length ∧
      (s.graph.mintMany marks.length).2.triples = s.graph.triples ∧
      Named { s with graph := (s.graph.mintMany marks.length).2 }
        (fresh ++ marks.zip (s.graph.mintMany marks.length).1) := by
  induction marks generalizing s fresh with
  | nil => exact ⟨.refl s, rfl, rfl, by simpa [Graph.mintMany] using h⟩
  | cons mark marks ih =>
    obtain ⟨hkept, hlength, htriples, hnamed⟩ := ih (h.mint mark)
    refine ⟨(Kept.mint s).trans hkept, ?_, htriples, ?_⟩
    · simpa [Graph.mintMany] using hlength
    · simpa [Graph.mintMany] using hnamed

/-- A label without a node takes an id that is not seen. -/
theorem Named.giveLabel (h : Named s fresh) {label id : String} (hid : id ∉ s.graph.seen) {g : Graph}
    (hseen : s.graph.seen ⊆ g.seen) (hmem : id ∈ g.seen) :
    Named { s with graph := g, labels := (label, .blank id) :: s.labels } fresh := by
  have hnew := h.not_mem hid
  have hgiven : givenNodes { s with graph := g, labels := (label, .blank id) :: s.labels } fresh =
      .blank id :: givenNodes s fresh := rfl
  constructor
  · rw [hgiven]
    exact List.nodup_cons.2 ⟨hnew, h.nodup⟩
  · intro node hnode
    rw [hgiven] at hnode
    cases List.mem_cons.1 hnode with
    | inl he => exact ⟨id, hmem, he⟩
    | inr hold =>
      obtain ⟨other, hother, rfl⟩ := h.seen node hold
      exact ⟨other, hseen hother, rfl⟩

theorem Kept.giveLabel {label : String} {node : Term} (hl : s.labels.lookup label = none)
    {g : Graph} (hbase : g.base = s.graph.base) (hspaces : g.namespaces = s.graph.namespaces) :
    Kept s { s with graph := g, labels := (label, node) :: s.labels } := by
  refine ⟨hbase, hspaces, fun {other found} h => ?_⟩
  have hne : other ≠ label := by
    intro he
    simp [he, hl] at h
  have hbeq : (other == label) = false := by simpa using hne
  simpa [List.lookup_cons, hbeq] using h

/-- The node of a label is the one given to it before, or a new one. -/
theorem Named.nodeOfLabel (h : Named s fresh) {label : String} (hlabel : label ≠ "") :
    ∃ id s1, s.nodeOfLabel label = .ok (.blank id, s1) ∧ s1.expecting = s.expecting ∧
      s1.waiting = s.waiting ∧ s1.graph.triples = s.graph.triples ∧ Kept s s1 ∧ Named s1 fresh ∧
      s1.labels.lookup label = some (.blank id) := by
  cases hl : s.labels.lookup label with
  | some node =>
    obtain ⟨before, behind, hlabels, -⟩ := List.lookup_eq_some_iff.1 hl
    have hmem : node ∈ givenNodes s fresh := by simp [givenNodes, hlabels]
    obtain ⟨id, -, rfl⟩ := h.seen node hmem
    exact ⟨id, s, by simp [State.nodeOfLabel, hl], rfl, rfl, rfl, .refl s, h, hl⟩
  | none =>
    by_cases hseen : label ∈ s.graph.seen
    · have hhas : s.graph.hasSeen label = true := by simpa [Graph.hasSeen] using hseen
      refine ⟨s.graph.mint.1, { s with
        graph := s.graph.mint.2, labels := (label, .blank s.graph.mint.1) :: s.labels },
        by simp [State.nodeOfLabel, hl, hhas], rfl, rfl, rfl, .giveLabel hl rfl rfl, ?_, by simp⟩
      exact h.giveLabel (Graph.mint_not_mem s.graph) (List.subset_append_left _ _)
        (by simp [Graph.mint])
    · have hhas : s.graph.hasSeen label = false := by simpa [Graph.hasSeen] using hseen
      have hsee := seen_see s.graph label
      have hscope := scope_foldl_see s.graph [label]
      refine ⟨label, { s with
        graph := s.graph.see label, labels := (label, .blank label) :: s.labels },
        ?_, rfl, rfl, Graph.see_triples s.graph label, .giveLabel hl hscope.1 hscope.2, ?_, by simp⟩
      · simp [State.nodeOfLabel, hl, hhas, Graph.reserve, Term.ofBlankId, hlabel, bind,
          Except.bind, pure, Except.pure, Refusal.checked, Term.blankId?]
      · exact h.giveLabel hseen hsee.1 hsee.2

end Rdf.Turtle

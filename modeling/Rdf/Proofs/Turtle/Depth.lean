import Rdf.Proofs.Graph.Minting
import Rdf.Proofs.Turtle.Overflow
import Rdf.Proofs.Turtle.Writing

/-!
How deep the documents are that are written.

What is written for a graph is nested as deep as the lists of the graph are, of which each is an
item of the one before it. The reader takes such a document up to its limit and refuses it beyond,
and the printer does not know of the limit: lists may be nested as deep as one likes.
-/

namespace Rdf

/-- The failure is that something is nested too deep. -/
def ReadFailure.IsNesting : ReadFailure → Prop
  | .document ⟨_, _, .grammar .nesting _⟩ => True
  | _ => False

namespace Turtle

open Refusal

variable {options : Options} {g : Graph} {text : String} {source : SourceName}
  {base : Option Iri} {failure : ReadFailure} {triples : List Triple} {id : String} {item : Term}
  {t : Triple} {n k : Nat}

/-! ### Refusals of texts -/

theorem isNesting_ofRefusal {token : Token} {refusal : Refusal}
    (h : (ReadFailure.ofRefusal source token refusal).IsNesting) : refusal = .grammar .nesting := by
  cases refusal with
  | grammar fault =>
    cases fault with
    | nesting => rfl
    | _ => exact h.elim
  | resolution _ | invalid _ => exact h.elim

/-- A text is refused for its depth where its lexemes are. -/
theorem exists_nesting_iff {lexemes : List Lexeme} (h : Lexes false text.toList lexemes) :
    (∃ failure, read text source base = .error failure ∧ failure.IsNesting) ↔
      machine.runLexemes { graph := { base } } lexemes = refuse .nesting := by
  obtain ⟨tokens, hscan, rfl⟩ := h.scanFrom .start
  rw [read, readTokens, Token.scanAll, hscan]
  constructor
  · rintro ⟨failure, hread, hnesting⟩
    cases hrun : machine.runLexemes { graph := { base } } (tokens.map (·.lexeme)) with
    | error refusal =>
      obtain ⟨token, -, hfailure⟩ := @Machine.read_eq_error _ _ machine _ _ source _ hrun
      obtain rfl := Except.error.inj (hread.symm.trans hfailure)
      exact congrArg Except.error (isNesting_ofRefusal hnesting)
    | ok s =>
      simp only [Machine.read, machine.run_eq_ok_iff.2 hrun] at hread
      cases hgraph : machine.result? s with
      | some graph => simp [hgraph] at hread
      | none =>
        simp only [hgraph] at hread
        exact (Except.error.inj hread ▸ hnesting : ReadFailure.unfinished.IsNesting).elim
  · intro hrun
    obtain ⟨token, -, hfailure⟩ := @Machine.read_eq_error _ _ machine _ _ source _ hrun
    exact ⟨_, hfailure, trivial⟩

/-! ### Texts that are written -/

/-- Only nested lists make the reader refuse for its depth what has been written. -/
theorem exists_nest_of_nesting (h : Definite g) (hwrite : write g options = .ok text)
    (hread : read text source base = .error failure) (hnesting : failure.IsNesting) :
    ∃ row, IsNest (options.chains g.triples) row ∧ maxNesting < row.length := by
  obtain ⟨document, hlexes, hdepth, -⟩ := write_outlines h hwrite
  refine Classical.by_contradiction fun hno => ?_
  have hshallow : document.IsShallow := (hdepth maxNesting).2 fun row hrow =>
    Nat.le_of_not_lt fun hlong => hno ⟨row, hrow, hlong⟩
  exact Document.unhindered hshallow base ((exists_nesting_iff hlexes).1 ⟨failure, hread, hnesting⟩)

/-- Lists that are nested deeper than the reader goes are written, but not read. -/
theorem nesting_of_nest (h : SelfDeclared options g) (hwrite : write g options = .ok text)
    {row : List Chain} (hrow : IsNest (options.chains g.triples) row)
    (hlong : maxNesting < row.length) (source : SourceName) :
    ∃ failure, read text source none = .error failure ∧ failure.IsNesting := by
  obtain ⟨document, hlexes, hdepth, houtlines, -⟩ := write_outlines h.toDefinite hwrite
  have hproper : ∀ l ∈ document.lexemes, l.Proper := fun l hl =>
    proper_of_lexes hlexes l (List.mem_append_left _ hl)
  have hdeep : ∃ statement ∈ document, maxNesting < statement.depth := by
    refine Classical.by_contradiction fun hno => ?_
    have hshallow := (hdepth maxNesting).1 fun statement hs =>
      Nat.le_of_not_lt fun hlt => hno ⟨statement, hs, hlt⟩
    exact Nat.not_lt.2 (hshallow row hrow) hlong
  exact (exists_nesting_iff hlexes).2
    (Document.refuses_deep (houtlines h).inScope hproper hdeep [.eof])

/-! ### Lists of one item -/

namespace Indexed

theorem mem_subjects {ts : Indexed} {i : Nat} (h : (t, i) ∈ ts) (ht : t.subject = .blank id) :
    id ∈ ts.subjects := by
  rw [subjects, List.mem_eraseDups]
  exact List.mem_filterMap.2 ⟨(t, i), h, Term.blankId?_eq_some_iff.2 ht⟩

theorem incoming_eq_single (h : triples.filter (fun t => t.object = .blank id) = [t]) :
    ∃ i, incoming triples.zipIdx id = [(t, i)] := by
  rw [← map_filter_zipIdx] at h
  simpa [incoming, List.map_eq_cons_iff] using h

/-- A cell that nothing follows and that is referred to once, not as a rest, is a list. -/
theorem exists_single
    (hout : triples.filter (fun t => t.subject = .blank id) =
      [⟨.blank id, .iri Vocabulary.first, item⟩,
        ⟨.blank id, .iri Vocabulary.rest, .iri Vocabulary.nil⟩])
    (hin : triples.filter (fun t => t.object = .blank id) = [t])
    (ht : t.predicate ≠ .iri Vocabulary.rest) :
    ∃ chain ∈ chains triples.zipIdx, chain.head = id ∧ chain.items = [item] := by
  obtain ⟨first, rest, houtgoing, hfirst, hrest⟩ :
      ∃ first rest, outgoing triples.zipIdx id = [first, rest] ∧
        first.1 = ⟨.blank id, .iri Vocabulary.first, item⟩ ∧
        rest.1 = ⟨.blank id, .iri Vocabulary.rest, .iri Vocabulary.nil⟩ := by
    rw [← map_filter_zipIdx] at hout
    simpa [outgoing, List.map_eq_cons_iff] using hout
  obtain ⟨i, hincoming⟩ := incoming_eq_single hin
  let cell : Cell := ⟨first.2, rest.2, item, .iri Vocabulary.nil⟩
  have hcell : cell? triples.zipIdx id = some cell := by
    simp [cell?, houtgoing, hfirst, hrest, cell]
  have hhead : isHead triples.zipIdx id = true := isHead_iff.2 ⟨(t, i), hincoming, ht⟩
  have hchain : chain? triples.zipIdx id = some ⟨id, [cell]⟩ := by
    simp [chain?, hhead, hcell, cell, walk]
  have hmem : first ∈ triples.zipIdx := List.mem_of_mem_filter (houtgoing ▸ List.mem_cons_self)
  exact ⟨_, List.mem_filterMap.2 ⟨id, mem_subjects hmem (congrArg Triple.subject hfirst), hchain⟩,
    rfl, rfl⟩

/-- What is referred to from outside of all blank nodes is in no list. -/
theorem parent?_eq_none (hin : triples.filter (fun t => t.object = .blank id) = [t])
    (ht : t.subject.blankId? = none) :
    parent? triples.zipIdx (chains triples.zipIdx) id = none := by
  obtain ⟨i, hincoming⟩ := incoming_eq_single hin
  have hmem : (t, i) ∈ triples.zipIdx := List.mem_of_mem_filter (hincoming ▸ List.mem_cons_self)
  simp only [parent?, hincoming, List.find?_eq_none]
  intro chain hchain hindex
  obtain ⟨other, -, u, hu⟩ := (isChain_of_mem hchain).mem_indices.1 (by simpa using hindex)
  obtain ⟨humem, hsubject⟩ := List.mem_filter.1 hu
  obtain rfl := eq_of_mem_zipIdx hmem humem
  rw [of_decide_eq_true hsubject] at ht
  cases ht

end Indexed

/-! ### Towers -/

def towerNode (k : Nat) : Term := .blank (Graph.mintedLabel k)

/-- The triple that refers to a node of a tower. -/
def towerStep : Nat → Triple
  | 0 => ⟨.iri ⟨"urn:s"⟩, .iri ⟨"urn:p"⟩, towerNode 0⟩
  | k + 1 => ⟨towerNode k, .iri Vocabulary.first, towerNode (k + 1)⟩

/-- So many lists of one item, each the item of the one before it. -/
def tower : Nat → List Triple
  | 0 => [towerStep 0]
  | n + 1 => tower n ++
    [towerStep (n + 1), ⟨towerNode n, .iri Vocabulary.rest, .iri Vocabulary.nil⟩]

theorem towerNode_inj : towerNode n = towerNode k ↔ n = k :=
  ⟨fun h => Graph.mintedLabel_injective (Term.blank.inj h), fun h => h ▸ rfl⟩

theorem towerStep_object (k : Nat) : (towerStep k).object = towerNode k := by cases k <;> rfl

theorem towerStep_predicate (k : Nat) : (towerStep k).predicate ≠ .iri Vocabulary.rest := by
  cases k <;> exact fun h => absurd (Term.iri.inj h) (by decide)

theorem filter_subject_tower (n k : Nat) :
    (tower n).filter (fun t => t.subject = towerNode k) = if k < n then
      [towerStep (k + 1), ⟨towerNode k, .iri Vocabulary.rest, .iri Vocabulary.nil⟩] else [] := by
  induction n with
  | zero => simp [tower, towerStep, towerNode]
  | succ n ih =>
    rw [tower, List.filter_append, ih]
    obtain hlt | rfl | hgt := Nat.lt_trichotomy k n
    · simp [towerStep, towerNode_inj, hlt, Nat.lt_succ_of_lt hlt, Nat.ne_of_gt hlt]
    · simp [towerStep]
    · simp [towerStep, towerNode_inj, Nat.lt_asymm hgt, Nat.not_lt.2 hgt, Nat.ne_of_lt hgt]

theorem filter_object_tower (n k : Nat) :
    (tower n).filter (fun t => t.object = towerNode k) = if k ≤ n then [towerStep k] else [] := by
  induction n with
  | zero => cases k <;> simp [tower, towerStep, towerNode_inj]
  | succ n ih =>
    rw [tower, List.filter_append, ih]
    have hnil : Term.iri Vocabulary.nil ≠ towerNode k := nofun
    obtain hle | rfl | hgt : k ≤ n ∨ k = n + 1 ∨ n + 1 < k := by omega
    · have hne : n + 1 ≠ k := by omega
      simp [towerStep_object, towerNode_inj, hnil, hle, Nat.le_succ_of_le hle, hne]
    · simp [towerStep_object, hnil]
    · have hne : n + 1 ≠ k := by omega
      have hnot : ¬k ≤ n := by omega
      simp [towerStep_object, towerNode_inj, hnil, hnot, Nat.not_le.2 hgt, hne]

/-- The lists of a tower. -/
theorem exists_storey (h : k < n) : ∃ chain ∈ Indexed.chains (tower n).zipIdx,
    chain.head = Graph.mintedLabel k ∧ chain.items = [towerNode (k + 1)] := by
  refine Indexed.exists_single ?_ ?_ (towerStep_predicate k)
  · exact (filter_subject_tower n k).trans (if_pos h)
  · exact (filter_object_tower n k).trans (if_pos (Nat.le_of_lt h))

theorem isRooted_storey (h : k < n) {bound : Nat} (hbound : k ≤ bound) :
    Indexed.isRooted (tower n).zipIdx (Indexed.chains (tower n).zipIdx) bound (Graph.mintedLabel k) =
      true := by
  induction k generalizing bound with
  | zero =>
    have hparent := Indexed.parent?_eq_none
      ((filter_object_tower n 0).trans (if_pos (Nat.zero_le n))) rfl
    cases bound <;> simp [Indexed.isRooted, hparent]
  | succ k ih =>
    obtain ⟨parent, hparent, hlabel, hitems⟩ := exists_storey (Nat.lt_of_succ_lt h)
    obtain ⟨chain, hchain, hhead, -⟩ := exists_storey h
    have hup := Indexed.parent?_eq hparent (hhead ▸ (Indexed.isChain_of_mem hchain).isHead)
      (hitems ▸ List.mem_singleton_self (towerNode (k + 1)))
    cases bound with
    | zero => cases hbound
    | succ bound =>
      simp only [Indexed.isRooted, hup, hlabel]
      exact ih (Nat.lt_of_succ_lt h) (Nat.le_of_succ_le_succ hbound)

theorem length_le_storeys (n : Nat) : n ≤ (Indexed.chains (tower n).zipIdx).length := by
  have hnodup : ((List.range n).map Graph.mintedLabel).Nodup :=
    List.nodup_range.map fun _ _ h => Graph.mintedLabel_injective h
  have hsubset : (List.range n).map Graph.mintedLabel ⊆
      (Indexed.chains (tower n).zipIdx).map (·.head) := by
    intro label hlabel
    obtain ⟨k, hk, rfl⟩ := List.mem_map.1 hlabel
    obtain ⟨chain, hchain, hhead, -⟩ := exists_storey (List.mem_range.1 hk)
    exact List.mem_map.2 ⟨chain, hchain, hhead⟩
  simpa using hnodup.length_le_of_subset hsubset

theorem exists_collection (h : k < n) : ∃ chain ∈ collections (tower n),
    chain.head = Graph.mintedLabel k ∧ chain.items = [towerNode (k + 1)] := by
  obtain ⟨chain, hchain, hhead, hitems⟩ := exists_storey h
  refine ⟨chain, List.mem_filter.2 ⟨hchain, ?_⟩, hhead, hitems⟩
  rw [hhead]
  exact isRooted_storey h (Nat.le_trans (Nat.le_of_lt h) (length_le_storeys n))

/-- The lists of a tower from one on are nested in each other. -/
theorem exists_nest_from (m k : Nat) : ∃ row, IsNest (collections (tower (k + m))) row ∧
    row.length = m ∧ ∀ top ∈ row.head?, top.head = Graph.mintedLabel k := by
  induction m generalizing k with
  | zero => exact ⟨[], ⟨List.nil_subset _, .nil⟩, rfl, nofun⟩
  | succ m ih =>
    obtain ⟨row, ⟨hsubset, hnest⟩, hlength, htop⟩ := ih (k + 1)
    rw [Nat.succ_add_eq_add_succ] at hsubset
    obtain ⟨chain, hchain, hhead, hitems⟩ := @exists_collection (k + (m + 1)) k (by omega)
    refine ⟨chain :: row, ⟨List.cons_subset.2 ⟨hchain, hsubset⟩, ?_⟩, by simp [hlength],
      by simp [hhead]⟩
    refine List.isChain_cons.2 ⟨fun top hmem => ?_, hnest⟩
    rw [hitems, htop top hmem]
    exact List.mem_singleton_self _

theorem exists_nest_tower (n : Nat) :
    ∃ row, IsNest (collections (tower n)) row ∧ row.length = n := by
  obtain ⟨row, hrow, hlength, -⟩ := exists_nest_from n 0
  exact ⟨row, Nat.zero_add n ▸ hrow, hlength⟩

theorem tower_sound (n : Nat) : ∀ t ∈ tower n, t.Sound := by
  have hnode : ∀ k, (towerNode k).Sound := fun k => .blank (Graph.isBlankLabel_mintedLabel k)
  have hname : ∀ name ∈ [⟨"urn:p"⟩, Vocabulary.first, Vocabulary.rest, Vocabulary.nil, ⟨"urn:s"⟩],
      (Term.iri name).Sound := fun name hname => .iri (by revert name; decide +kernel)
  have hstep : ∀ k, (towerStep k).Sound := fun k => by
    cases k with
    | zero => exact .of_terms rfl rfl (hname _ (by simp)) (hname _ (by simp)) (hnode 0)
    | succ k => exact .of_terms rfl rfl (hnode k) (hname _ (by simp)) (hnode (k + 1))
  induction n with
  | zero => exact List.forall_mem_singleton.2 (hstep 0)
  | succ n ih =>
    refine List.forall_mem_append.2 ⟨ih, List.forall_mem_cons.2 ⟨hstep (n + 1), ?_⟩⟩
    exact List.forall_mem_singleton.2
      (.of_terms rfl rfl (hnode n) (hname _ (by simp)) (hname _ (by simp)))

theorem tower_declared (n : Nat) : SelfDeclared {} { triples := tower n } :=
  ⟨⟨List.nodup_nil, fun t ht => (tower_sound n t ht).absolute⟩, nofun, nofun⟩

theorem exists_write_tower (n : Nat) : ∃ text, write { triples := tower n } {} = .ok text :=
  exists_write (fun t ht => ⟨(tower_sound n t ht).valid, (tower_sound n t ht).writable⟩) nofun

/-! ### The limit of the reader -/

/-- What is written for a graph is nested as deep as the lists of the graph are. The reader refuses
it for its depth only where that is deeper than its limit. There it does refuse it, if what the text
declares is absolute. -/
theorem write_as_deep_as_lists (h : Definite g) (hwrite : write g options = .ok text) :
    (∃ document : Document String, Lexes false text.toList (document.lexemes ++ [.eof]) ∧
      ∀ n, (∀ statement ∈ document, statement.depth ≤ n) ↔
        ∀ row, IsNest (options.chains g.triples) row → row.length ≤ n) ∧
    (∀ source base failure, read text source base = .error failure → failure.IsNesting →
      ∃ row, IsNest (options.chains g.triples) row ∧ maxNesting < row.length) ∧
    (SelfDeclared options g →
      (∃ row, IsNest (options.chains g.triples) row ∧ maxNesting < row.length) →
        ∀ source, ∃ failure, read text source none = .error failure ∧ failure.IsNesting) := by
  obtain ⟨document, hlexes, hdepth, -⟩ := write_outlines h hwrite
  refine ⟨⟨document, hlexes, hdepth⟩, fun source base failure hread hnesting => ?_,
    fun hdeclared ⟨row, hrow, hlong⟩ source => ?_⟩
  · exact exists_nest_of_nesting h hwrite hread hnesting
  · exact nesting_of_nest hdeclared hwrite hrow hlong source

/-- A list in a list is written two deep, and not refused for that. -/
theorem write_as_deep_as_lists_two : ∃ text, write { triples := tower 2 } {} = .ok text ∧
    (∃ document : Document String, Lexes false text.toList (document.lexemes ++ [.eof]) ∧
      ∀ n, (∀ statement ∈ document, statement.depth ≤ n) ↔ 2 ≤ n) ∧
    ∀ source base failure, read text source base = .error failure → ¬failure.IsNesting := by
  obtain ⟨text, hwrite⟩ := exists_write_tower 2
  obtain ⟨⟨document, hlexes, hdepth⟩, hnesting, -⟩ :=
    write_as_deep_as_lists (tower_declared 2).toDefinite hwrite
  have hlists : (Options.chains {} (tower 2)).length ≤ 2 := by decide +kernel
  have hshort : ∀ row, IsNest (Options.chains {} (tower 2)) row → row.length ≤ 2 := fun row hrow =>
    Nat.le_trans ((Forest.of_options {} (tower 2)).length_le_of_isNest hrow) hlists
  refine ⟨text, hwrite, ⟨document, hlexes, fun n => (hdepth n).trans ⟨fun hall => ?_, ?_⟩⟩, ?_⟩
  · obtain ⟨row, hrow, hlength⟩ := exists_nest_tower 2
    exact hlength ▸ hall row hrow
  · exact fun hle row hrow => Nat.le_trans (hshort row hrow) hle
  · intro source base failure hread hfailure
    obtain ⟨row, hrow, hlong⟩ := hnesting source base failure hread hfailure
    exact absurd hlong (Nat.not_lt.2 (Nat.le_trans (hshort row hrow) (by decide)))

/-- One list more than the reader goes deep is written, and refused when it is read. -/
theorem tower_refused :
    (∀ t ∈ tower 129, t.WellFormed ∧ t.Absolute) ∧
      ∃ text failure, write { triples := tower 129 } {} = .ok text ∧
        read text (.text "tower") none = .error failure ∧ failure.IsNesting := by
  refine ⟨fun t ht => ⟨(tower_sound 129 t ht).valid.wellFormed, (tower_sound 129 t ht).absolute⟩, ?_⟩
  obtain ⟨text, hwrite⟩ := exists_write_tower 129
  obtain ⟨row, hrow, hlength⟩ := exists_nest_tower 129
  have hlong : maxNesting < row.length := by
    rw [hlength]
    decide
  obtain ⟨failure, hread, hnesting⟩ :=
    nesting_of_nest (tower_declared 129) hwrite hrow hlong (.text "tower")
  exact ⟨text, failure, hwrite, hread, hnesting⟩

end Turtle

end Rdf

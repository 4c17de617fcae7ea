import Mathlib.Data.List.Chain
import Rdf.Proofs.Turtle.Acceptance
import Rdf.Proofs.Turtle.Blocks
import Rdf.Proofs.Turtle.Directives
import Rdf.Proofs.Turtle.Renaming

/-!
Documents of Turtle read back.

A graph is written as a document of the grammar that means its triples. The reader gives names of
its own to the nodes of the document, so that the graph it reads is the one that was written up to
the names of blank nodes.
-/

namespace Rdf.Turtle

open Text

variable {options : Options} {g : Graph} {scope : Scope} {base : Option Iri} {spaces : Spaces}
  {chains : List Chain} {triples : List Triple}

/-! ### Documents in one scope -/

/-- Statements that are no directives are all in the same scope. -/
theorem Document.inScope_of_keeps {body : Document String}
    (hkeeps : ∀ statement ∈ body, ∀ s, statement.scopeAfter s = s)
    (hnames : ∀ statement ∈ body, ∀ n ∈ statement.names, n.InScope scope) :
    body.InScope scope ∧ body.scopeAfter scope = scope ∧
      body.triples id id scope = body.flatMap fun statement => statement.added scope id id := by
  induction body with
  | nil => exact ⟨trivial, rfl, rfl⟩
  | cons statement body ih =>
    obtain ⟨hkeep, hkeeps⟩ := List.forall_mem_cons.1 hkeeps
    obtain ⟨hfirst, hnames⟩ := List.forall_mem_cons.1 hnames
    obtain ⟨hscope, hafter, htriples⟩ := ih hkeeps hnames
    have hsame := hkeep scope
    refine ⟨⟨hfirst, by rwa [hsame]⟩, ?_, ?_⟩
    · rw [Document.scopeAfter, List.foldl_cons, hsame]
      exact hafter
    · rw [Document.triples, hsame, htriples, List.flatMap_cons]

theorem directives_empty (base : Option Iri) (spaces : Spaces) (scope : Scope) :
    (directives base spaces).marks = [] ∧ (directives base spaces).labels = [] ∧
      (∀ statement ∈ directives base spaces, statement.depth = 0) ∧
      (directives base spaces).triples id id scope = [] := by
  have hall : ∀ statement ∈ directives base spaces, statement.marks = [] ∧ statement.labels = [] ∧
      statement.depth = 0 ∧ ∀ scope, statement.added scope id id = [] := by
    intro statement hmem
    obtain hbase | hspace := List.mem_append.1 hmem
    · obtain ⟨iri, -, rfl⟩ := List.mem_map.1 hbase
      exact ⟨rfl, rfl, rfl, fun _ => rfl⟩
    · obtain ⟨space, -, rfl⟩ := List.mem_map.1 hspace
      exact ⟨rfl, rfl, rfl, fun _ => rfl⟩
  refine ⟨List.flatMap_eq_nil_iff.2 fun _ h => (hall _ h).1,
    List.flatMap_eq_nil_iff.2 fun _ h => (hall _ h).2.1, fun _ h => (hall _ h).2.2.1, ?_⟩
  · generalize directives base spaces = document at hall
    induction document generalizing scope with
    | nil => rfl
    | cons statement document ih =>
      obtain ⟨hfirst, hrest⟩ := List.forall_mem_cons.1 hall
      rw [Document.triples, hfirst.2.2.2, ih _ hrest, List.nil_append]

/-! ### Forests that are written -/

theorem mem_chainTriples {cells : List (Term × Term)} {entry : Term × Term} (h : entry ∈ cells) :
    ⟨entry.1, .iri Vocabulary.first, entry.2⟩ ∈ chainTriples cells := by
  induction cells with
  | nil => simp at h
  | cons cell cells ih =>
    obtain rfl | hrest := List.mem_cons.1 h
    · exact List.mem_cons_self
    · exact List.mem_cons_of_mem _ (List.mem_cons_of_mem _ (ih hrest))

namespace Forest

/-- The items of a list are objects of the triples. -/
theorem item_object (h : Forest triples chains) {chain : Chain} (hchain : chain ∈ chains)
    {item : Term} (hitem : item ∈ chain.items) : ∃ t ∈ triples, t.object = item := by
  have hlength := h.length chain hchain
  have hzip : ((chain.ids.map Term.blank).zip chain.items).map (·.2) = chain.items :=
    List.map_snd_zip (by simp [hlength])
  rw [← hzip] at hitem
  obtain ⟨entry, hentry, rfl⟩ := List.mem_map.1 hitem
  refine ⟨⟨entry.1, .iri Vocabulary.first, entry.2⟩,
    h.perm.mem_iff.2 (List.mem_append_right _ ?_), rfl⟩
  exact List.mem_flatMap.2 ⟨chain, hchain, mem_chainTriples hentry⟩

/-- All chains are written in the objects of the visible triples. -/
theorem contents_perm (h : Forest triples chains) :
    (((contents (grouped (visible triples chains))).map (·.object)).flatMap (expand chains)).Perm
      chains := by
  have hobjects := (contents_grouped (visible triples chains)).map (·.object)
  exact (hobjects.flatMap_right (expand chains)).trans h.expand_perm

theorem visible_subset (h : Forest triples chains) : visible triples chains ⊆ triples :=
  fun _ ht => h.perm.mem_iff.2 (List.mem_append_left _ ht)

/-- A visible triple is about no node of a list, and writes none of them with a label. -/
theorem visible_apart (h : Forest triples chains) {t : Triple} (ht : t ∈ visible triples chains) :
    (∀ id, t.subject = .blank id → id ∉ chainIds chains) ∧
      ∀ id ∈ leaves chains t.object, id ∉ chainIds chains := by
  constructor
  · intro id hid hmem
    rw [h.visible_eq] at ht
    have habout : isAbout (chainIds chains) t = true := isAbout_iff.2 ⟨id, hmem, hid⟩
    simpa [habout] using (List.mem_filter.1 ht).2
  · intro id hid
    obtain ⟨level, hlevel⟩ := h.level
    have hplace : t.object ∈ places triples chains :=
      List.mem_append_left _ (List.mem_map_of_mem ht)
    exact h.leaves_not_mem hlevel hplace (.start chains level t.object) hid

/-- Lists that are nested in each other are different ones. -/
theorem length_le_of_isNest (h : Forest triples chains) {row : List Chain}
    (hrow : IsNest chains row) : row.length ≤ chains.length := by
  obtain ⟨hsubset, hnest⟩ := hrow
  obtain ⟨level, hlevel⟩ := h.level
  have hsteps : row.IsChain fun outer inner => level outer.head < level inner.head :=
    hnest.imp_of_mem_imp fun outer inner houter hinner hitem =>
      hlevel outer (hsubset houter) inner (hsubset hinner) hitem
  have hheads : (row.map fun chain => level chain.head).IsChain (· < ·) :=
    (List.isChain_map _).2 hsteps
  have hnodup : row.Nodup := by
    refine List.Nodup.of_map (fun chain => level chain.head) ?_
    exact hheads.pairwise.imp fun hlt => Nat.ne_of_lt hlt
  exact hnodup.length_le_of_subset hsubset

end Forest

/-! ### Round trip -/

/-- No label is bound twice, and what the triples name is absolute. -/
structure Definite (g : Graph) : Prop where
  labels : (g.namespaces.map (·.1)).Nodup
  triples : ∀ t ∈ g.triples, t.Absolute

/-- Without a base from outside, what is written for the graph means something, as what it declares
is absolute as well. -/
structure SelfDeclared (options : Options) (g : Graph) : Prop extends Definite g where
  base : ∀ iri ∈ writtenBase options g, iri.isAbsolute = true
  spaces : ∀ space ∈ writtenSpaces options g, space.2.isAbsolute = true

/-- Without a base from outside, the graph is read back from what is written for it: no label is
bound twice, what is written is absolute, and lists are not nested too deep. -/
structure SelfContained (options : Options) (g : Graph) : Prop where
  labels : (g.namespaces.map (·.1)).Nodup
  triples : ∀ t ∈ g.triples, t.Absolute
  base : ∀ iri ∈ writtenBase options g, iri.isAbsolute = true
  spaces : ∀ space ∈ writtenSpaces options g, space.2.isAbsolute = true
  nest : ∀ row, IsNest (options.chains g.triples) row → row.length ≤ maxNesting

theorem SelfContained.declared (h : SelfContained options g) : SelfDeclared options g :=
  ⟨⟨h.labels, h.triples⟩, h.base, h.spaces⟩

/-- A text spells a document about some triples, in which each node has one name. -/
structure Outlines (text : List Char) (document : Document String) (scope : Scope)
    (triples : List Triple) : Prop where
  lexes : Lexes false text (document.lexemes ++ [.eof])
  inScope : document.InScope ⟨none, []⟩
  scopeAfter : document.scopeAfter ⟨none, []⟩ = scope
  marks : document.marks.Nodup
  labels : ∀ l ∈ document.labels, l ∉ document.marks
  triples : (document.triples id id ⟨none, []⟩).Perm triples

/-- A text reads as a document about some triples that is nowhere nested too deep. -/
structure Depicts (text : List Char) (document : Document String) (scope : Scope)
    (triples : List Triple) : Prop extends Outlines text document scope triples where
  shallow : document.IsShallow

theorem Definite.nodup (h : Definite g) (options : Options) :
    ((writtenSpaces options g).map (·.1)).Nodup := by
  by_cases hw : options.writesLabels = true
  · rw [writtenSpaces, if_pos hw]
    exact h.labels.sublist (List.filter_sublist.map _)
  · simp [writtenSpaces, hw]

theorem Definite.printable (h : Definite g) (options : Options) :
    Printable (writtenSpaces options g) (options.chains g.triples) := by
  have hforest := Forest.of_options options g.triples
  refine ⟨⟨fun _ hspace => isSpaceLabel_of_mem hspace, h.nodup options⟩, fun chain hchain item hitem => ?_,
    hforest.length⟩
  obtain ⟨t, ht, rfl⟩ := hforest.item_object hchain hitem
  exact (h.triples t ht).2.2

/-- The visible triples of a subject can be written apart from the lists. -/
theorem Definite.apart (h : Definite g) (hformed : ∀ t ∈ g.triples, t.WellFormed)
    {group : Term × List (Term × List Term)}
    (hgroup : group ∈ grouped (visible g.triples (options.chains g.triples))) :
    Apart (options.chains g.triples) group := by
  have hforest := Forest.of_options options g.triples
  obtain ⟨hne, hparts, hcontent⟩ := mem_grouped hgroup
  obtain ⟨t, ht, hsubject⟩ : ∃ t ∈ visible g.triples (options.chains g.triples),
      t.subject = group.1 := by
    obtain ⟨part, hpart⟩ := List.exists_mem_of_ne_nil _ hne
    obtain ⟨object, hobject⟩ := List.exists_mem_of_ne_nil _ (hparts part hpart)
    have hmem : ⟨group.1, part.1, object⟩ ∈ content group.1 group.2 :=
      List.mem_flatMap.2 ⟨part, hpart, List.mem_map_of_mem hobject⟩
    exact ⟨_, hcontent _ hmem, rfl⟩
  refine ⟨hne, hparts, ?_, ?_, fun u hu => ?_, fun u hu => ?_⟩
  · rw [← hsubject]
    exact (hformed t (hforest.visible_subset ht)).1
  · rw [← hsubject]
    exact (hforest.visible_apart ht).1
  · exact h.triples u (hforest.visible_subset (hcontent u hu))
  · exact (hforest.visible_apart (hcontent u hu)).2

theorem checks_eq_ok_iff {triples : List Triple} :
    triples.forM Spelling.checkTriple = .ok () ↔ ∀ t ∈ triples, t.WellFormed := by
  induction triples with
  | nil => simp [pure, Except.pure]
  | cons t triples ih =>
    rw [List.forM_eq_forM] at ih
    rw [List.forM_eq_forM, List.forM_cons, bind_eq_ok, List.forall_mem_cons]
    constructor
    · rintro ⟨_, hfirst, hrest⟩
      exact ⟨(Spelling.checkTriple_eq_ok_iff t).1 hfirst, ih.1 hrest⟩
    · rintro ⟨hfirst, hrest⟩
      exact ⟨(), (Spelling.checkTriple_eq_ok_iff t).2 hfirst, ih.2 hrest⟩

theorem write_eq_ok {text : String} (h : write g options = .ok text) :
    (∀ t ∈ g.triples, t.WellFormed) ∧ ∃ blocks,
      statements options (writtenSpaces options g) (options.chains g.triples)
        (visible g.triples (options.chains g.triples)) = .ok blocks ∧
      text.toList = unlines (header options g) ++ unlines blocks := by
  rw [write] at h
  obtain ⟨-, -, h⟩ := bind_eq_ok.1 h
  obtain ⟨_, hchecks, h⟩ := bind_eq_ok.1 h
  obtain ⟨blocks, hblocks, h⟩ := bind_eq_ok.1 h
  obtain rfl := Except.ok.inj h
  refine ⟨checks_eq_ok_iff.1 hchecks, blocks, hblocks, ?_⟩
  rw [String.toList_ofList, unlines, List.flatMap_append]
  rfl

/-- What is written for a graph is a document: what it declares, and statements about its triples. -/
theorem write_body (h : Definite g) {text : String} (hwrite : write g options = .ok text) :
    ∃ (block : List Char) (body : Document String),
      Writes ⟨writtenBase options g, writtenSpaces options g⟩ (options.chains g.triples) block body
        (contents (grouped (visible g.triples (options.chains g.triples)))) ∧
      Lexes false text.toList (Document.lexemes
        (directives (writtenBase options g) (writtenSpaces options g) ++ body) ++ [.eof]) := by
  obtain ⟨hformed, blocks, hblocks, htext⟩ := write_eq_ok hwrite
  obtain ⟨body, hbody⟩ := statements_write (h.printable options) hblocks
    (fun _ hgroup => h.apart hformed hgroup) (writtenBase options g)
  refine ⟨unlines blocks, body, hbody, ?_⟩
  have hreads : Reads (unlines blocks ++ []) (body.lexemes ++ [.eof]) := hbody.reads .nil
  rw [List.append_nil] at hreads
  have hall := @header_lexes options g _ _ hreads
  rw [htext]
  simpa [Document.lexemes] using hall

/-- Behind what is declared, the statements are in the scope that they were written for. -/
theorem SelfDeclared.inScope (h : SelfDeclared options g) {block : List Char}
    {body : Document String} {own : List Triple}
    (hbody : Writes ⟨writtenBase options g, writtenSpaces options g⟩ chains block body own) :
    let scope : Scope := ⟨writtenBase options g, writtenSpaces options g⟩
    let document := directives (writtenBase options g) (writtenSpaces options g) ++ body
    document.InScope ⟨none, []⟩ ∧ document.scopeAfter ⟨none, []⟩ = scope ∧
      document.triples id id ⟨none, []⟩ =
        body.flatMap fun statement => statement.added scope id id := by
  intro scope document
  obtain ⟨-, -, -, hempty⟩ :=
    directives_empty (writtenBase options g) (writtenSpaces options g) ⟨none, []⟩
  obtain ⟨hin, hafter⟩ := directives_inScope h.base h.spaces (h.nodup options)
  obtain ⟨hinBody, hafterBody, htriples⟩ := Document.inScope_of_keeps hbody.scopeAfter hbody.names
  refine ⟨(Document.inScope_append _ _ _).2 ⟨hin, by rwa [hafter]⟩, ?_, ?_⟩
  · rw [Document.scopeAfter, List.foldl_append]
    exact (congrArg (Document.scopeAfter · body) hafter).trans hafterBody
  · rw [Document.triples_append, hempty, hafter, htriples, List.nil_append]

/-- What is written for a graph is a document that is nested as deep as the lists of the graph are.
Where what it declares is absolute, it is about the triples of the graph. It begins with what it
declares. -/
theorem write_outlines (h : Definite g) {text : String} (hwrite : write g options = .ok text) :
    ∃ document : Document String, Lexes false text.toList (document.lexemes ++ [.eof]) ∧
      (∀ n, (∀ statement ∈ document, statement.depth ≤ n) ↔
        ∀ row, IsNest (options.chains g.triples) row → row.length ≤ n) ∧
      (SelfDeclared options g → Outlines text.toList document
        ⟨writtenBase options g, writtenSpaces options g⟩ g.triples) ∧
      directives (writtenBase options g) (writtenSpaces options g) <+: document := by
  obtain ⟨block, body, hbody, hlexes⟩ := write_body h hwrite
  have hforest := Forest.of_options options g.triples
  obtain ⟨hmarks, hlabels, hflat, -⟩ :=
    directives_empty (writtenBase options g) (writtenSpaces options g) ⟨none, []⟩
  let head := directives (writtenBase options g) (writtenSpaces options g)
  have hbodyMarks : body.marks.Perm (chainIds (options.chains g.triples)) :=
    hbody.marks.trans (hforest.contents_perm.flatMap_right Chain.ids)
  have hallMarks : Document.marks (head ++ body) = body.marks := by
    rw [Document.marks, List.flatMap_append]
    exact congrArg (· ++ body.marks) hmarks
  have hallLabels : Document.labels (head ++ body) = body.labels := by
    rw [Document.labels, List.flatMap_append]
    exact congrArg (· ++ body.labels) hlabels
  refine ⟨head ++ body, hlexes, fun n => ?_, fun hdeclared => ?_, List.prefix_append _ _⟩
  · have hdirectives : ∀ statement ∈ head, statement.depth ≤ n := fun statement hs => by
      rw [hflat statement hs]
      exact Nat.zero_le n
    rw [List.forall_mem_append, hbody.depth, ← hforest.heights_le_iff]
    simp only [(contents_grouped _).mem_iff]
    exact and_iff_right hdirectives
  obtain ⟨hin, hafter, htriples⟩ := hdeclared.inScope hbody
  refine ⟨hlexes, hin, hafter, ?_, ?_, ?_⟩
  · rw [hallMarks]
    exact hbodyMarks.nodup_iff.2 hforest.nodup
  · rw [hallMarks, hallLabels]
    exact fun l hl hmark => hbody.labels l hl (hbodyMarks.mem_iff.1 hmark)
  · rw [htriples]
    have hchains := hforest.contents_perm.flatMap_right Chain.triples
    exact hbody.triples.trans (((contents_grouped _).append hchains).trans hforest.perm.symm)

/-- What is written for a graph is a document about its triples. -/
theorem write_depicts (h : SelfContained options g) {text : String}
    (hwrite : write g options = .ok text) :
    ∃ document, Depicts text.toList document ⟨writtenBase options g, writtenSpaces options g⟩
      g.triples := by
  obtain ⟨document, -, hdepth, houtlines, -⟩ := write_outlines h.declared.toDefinite hwrite
  exact ⟨document, houtlines h.declared, (hdepth maxNesting).2 h.nest⟩

/-- The lexemes that a text reads as are those of a scanner. -/
theorem proper_of_lexes {afterString : Bool} {text : List Char} {lexemes : List Lexeme}
    (h : Lexes afterString text lexemes) : ∀ l ∈ lexemes, l.Proper := by
  induction h with
  | eof _ => simp [Lexeme.Proper]
  | cons _ hscan _ ih => exact List.forall_mem_cons.2 ⟨IsScanned.proper ⟨_, _, _, hscan⟩, ih⟩

/-- What is written for a graph is read back as the graph, up to the names of its blank nodes, with
the base and the namespaces that were written. -/
theorem read_write (h : SelfContained options g) {text : String}
    (hwrite : write g options = .ok text) (source : SourceName) :
    ∃ result, read text source none = .ok result ∧ Isomorphic g.triples result.triples ∧
      result.base = writtenBase options g ∧ result.namespaces = writtenSpaces options g := by
  obtain ⟨document, hdepicts⟩ := write_depicts h hwrite
  have hproper : ∀ l ∈ document.lexemes, l.Proper := fun l hl =>
    proper_of_lexes hdepicts.lexes l (List.mem_append_left _ hl)
  have hformed : ∀ t ∈ document.triples id id ⟨none, []⟩, t.WellFormed := fun t ht =>
    (write_eq_ok hwrite).1 t (hdepicts.triples.mem_iff.1 ht)
  obtain ⟨s, hrun, hisomorphic, hscope⟩ := document.runs_isomorphic none hdepicts.inScope hproper
    hdepicts.shallow hdepicts.marks hdepicts.labels hformed
  obtain ⟨tokens, hscan, hmap⟩ := hdepicts.lexes.scanFrom .start
  rw [← hmap] at hrun
  rw [hdepicts.scopeAfter] at hscope
  refine ⟨s.graph, ?_, ?_, congrArg Scope.base hscope, congrArg Scope.spaces hscope⟩
  · rw [read, readTokens, Token.scanAll, hscan]
    exact machine.read_eq_ok_iff.2 ⟨_, hrun, rfl⟩
  · exact (Isomorphic.congr (fun t => hdepicts.triples.mem_iff.symm) fun _ => Iff.rfl).2 hisomorphic

/-- Nested lists, names that need brackets or backslashes, and a label that the reader would mint. -/
theorem read_write_nested :
    let cell (node : String) (item : Term) (behind : Term) : List Triple :=
      [⟨.blank node, .iri Vocabulary.first, item⟩, ⟨.blank node, .iri Vocabulary.rest, behind⟩]
    let number : Term := .literal ⟨"-1.5", none, some Vocabulary.decimal⟩
    let g : Graph := {
      base := some ⟨"urn:b"⟩
      namespaces := [("p", ⟨"urn:p#"⟩), ("a b", ⟨"relative"⟩), ("", ⟨"urn:"⟩)]
      triples := [⟨.blank "auto0", .iri ⟨"urn:p#a.b."⟩, .blank "x"⟩,
        ⟨.iri ⟨"urn:<y>"⟩, .iri Vocabulary.type, .literal ⟨"\"\\\n", some "en-GB", none⟩⟩] ++
          cell "x" (.blank "y") (.blank "z") ++ cell "y" number (.iri Vocabulary.nil) ++
            cell "z" (.blank "auto0") (.iri Vocabulary.nil) }
    ∃ text result, write g {} = .ok text ∧ read text (.text "nested") none = .ok result ∧
      Isomorphic g.triples result.triples ∧ result.base = some ⟨"urn:b"⟩ ∧
        result.namespaces = [("p", ⟨"urn:p#"⟩), ("", ⟨"urn:"⟩)] := by
  intro cell number g
  have hlists : (Options.chains {} g.triples).length ≤ maxNesting := by decide +kernel
  have hself : SelfContained {} g := by
    refine ⟨by decide +kernel, by decide +kernel, by decide +kernel, by decide +kernel,
      fun row hrow => ?_⟩
    exact ((Forest.of_options {} g.triples).length_le_of_isNest hrow).trans hlists
  have hsome : (write g {}).toOption.isSome = true := by decide +kernel
  cases hwrite : write g {} with
  | error fault => simp [hwrite, Except.toOption] at hsome
  | ok text =>
    obtain ⟨result, hread, hisomorphic, hbase, hspaces⟩ := read_write hself hwrite (.text "nested")
    have hwritten : writtenSpaces {} g = [("p", ⟨"urn:p#"⟩), ("", ⟨"urn:"⟩)] := by decide +kernel
    exact ⟨text, result, rfl, hread, hisomorphic, hbase, hspaces.trans hwritten⟩

end Rdf.Turtle

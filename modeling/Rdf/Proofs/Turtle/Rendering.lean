import Rdf.Proofs.Term.Validity
import Rdf.Proofs.Turtle.Abbreviation
import Rdf.Proofs.Turtle.Nesting

/-!
What the printer writes is a phrase.

Each part of a statement is written as a phrase of the grammar, whose triples are those that the
part is about and those of the chains that are written in it.
-/

namespace Rdf.Turtle

open Text Scan

def Interpretation.plain (scope : Scope) : Interpretation String := ⟨scope.iri, id, id⟩

/-- A text is written for a phrase, which is about some triples, in their order, and has some chains
and labels written in it, and terms of some heights. -/
structure Renders {part : Part} (scope : Scope) (text : List Char) (phrase : Phrase String part)
    (subject predicate : Term) (own : List Triple) (written : List Chain) (labels : List String)
    (heights : List Nat) : Prop where
  spells : Spells text phrase.lexemes
  names : ∀ n ∈ phrase.names, n.InScope scope
  labels : phrase.labels = labels
  marks : phrase.marks.Perm (written.flatMap Chain.ids)
  triples : (phrase.triples (.plain scope) subject predicate).Perm
    (own ++ written.flatMap Chain.triples)
  depth : phrase.depth = deepest heights
  order : own.Sublist (phrase.triples (.plain scope) subject predicate)

/-- A text is written for a term. -/
structure RendersTerm (scope : Scope) (chains : List Chain) (t : Term) (text : List Char)
    (phrase : Phrase String .object) : Prop where
  term : phrase.term (.plain scope) = t
  renders : ∀ subject predicate, Renders scope text phrase subject predicate [] (expand chains t)
    (leaves chains t) [height chains t]

variable {options : Options} {spaces : Spaces} {chains : List Chain} {base : Option Iri}
  {scope : Scope} {t subject : Term} {text : List Char}

theorem mapM_cons_eq_ok {α : Type} {f : α → Written} {x : α} {xs : List α}
    {texts : List (List Char)} (h : (x :: xs).mapM f = .ok texts) :
    ∃ text more, texts = text :: more ∧ f x = .ok text ∧ xs.mapM f = .ok more := by
  rw [List.mapM_cons] at h
  obtain ⟨text, hx, h⟩ := bind_eq_ok.1 h
  obtain ⟨more, hxs, h⟩ := bind_eq_ok.1 h
  exact ⟨text, more, (Except.ok.inj h).symm, hx, hxs⟩

/-- What is written for several things is written for each of them. -/
theorem entries_of_mapM {α γ : Type} {f : α → Written} {R : α → List Char → γ → Prop} {xs : List α}
    {texts : List (List Char)} (h : xs.mapM f = .ok texts)
    (hf : ∀ x ∈ xs, ∀ text, f x = .ok text → ∃ z, R x text z) :
    ∃ entries : List (α × List Char × γ), entries.map (·.1) = xs ∧
      entries.map (·.2.1) = texts ∧ ∀ entry ∈ entries, R entry.1 entry.2.1 entry.2.2 := by
  induction xs generalizing texts with
  | nil =>
    obtain rfl := Except.ok.inj h
    exact ⟨[], rfl, rfl, by simp⟩
  | cons x xs ih =>
    obtain ⟨text, more, rfl, hx, hxs⟩ := mapM_cons_eq_ok h
    obtain ⟨z, hz⟩ := hf x List.mem_cons_self text hx
    obtain ⟨entries, hfst, htexts, hall⟩ := ih hxs fun y hy => hf y (List.mem_cons_of_mem x hy)
    exact ⟨(x, text, z) :: entries, by simp [hfst], by simp [htexts],
      List.forall_mem_cons.2 ⟨hz, hall⟩⟩

theorem intercalate_cons {α : Type} (sep first : List α) (rest : List (List α)) :
    sep.intercalate (first :: rest) = first ++ rest.flatMap (sep ++ ·) := by
  induction rest generalizing first with
  | nil => simp
  | cons second rest ih => rw [List.intercalate_cons_cons, ih, List.flatMap_cons]; simp

/-! ### Items -/

abbrev Entry : Type := Term × List Char × Phrase String .object

theorem items_render {entries : List Entry} {ids : List String}
    (hlength : ids.length = entries.length)
    (h : ∀ entry ∈ entries, RendersTerm scope chains entry.1 entry.2.1 entry.2.2) :
    ∃ phrase : Phrase String .items, phrase.cells = ids ∧
      phrase.itemTerms (.plain scope) = entries.map (·.1) ∧
      ∀ subject predicate, Renders scope (entries.flatMap fun entry => ' ' :: entry.2.1) phrase
        subject predicate [] ((entries.map (·.1)).flatMap (expand chains))
        ((entries.map (·.1)).flatMap (leaves chains)) ((entries.map (·.1)).map (height chains)) := by
  induction entries generalizing ids with
  | nil =>
    obtain rfl : ids = [] := by simpa using hlength
    exact ⟨.noItems, rfl, rfl, fun _ _ => ⟨.nil, by simp [Phrase.names], rfl, .refl _, .refl _,
      rfl, .refl _⟩⟩
  | cons entry entries ih =>
    cases ids with
    | nil => simp at hlength
    | cons cell ids =>
      obtain ⟨hentry, hentries⟩ := List.forall_mem_cons.1 h
      obtain ⟨rest, hcells, hterms, hrest⟩ := ih (by simpa using hlength) hentries
      refine ⟨.item cell entry.2.2 rest, by simp [Phrase.cells, hcells],
        by simp [Phrase.itemTerms, hterms, hentry.term], fun subject predicate => ?_⟩
      have h1 := hentry.renders subject predicate
      have h2 := hrest subject predicate
      refine ⟨?_, ?_, ?_, ?_, ?_, ?_, List.nil_sublist _⟩
      · rw [List.flatMap_cons, List.cons_append]
        exact (h1.spells.append h2.spells (.flatMap (by decide) _ entries)).space
      · exact List.forall_mem_append.2 ⟨h1.names, h2.names⟩
      · simp [Phrase.labels, h1.labels, h2.labels]
      · simpa [Phrase.marks] using h1.marks.append h2.marks
      · simpa [Phrase.triples] using h1.triples.append h2.triples
      · simp [Phrase.depth, h1.depth, h2.depth]

theorem Renders.spaced {part : Part} {phrase : Phrase String part} {predicate : Term}
    {own : List Triple} {written : List Chain} {labels : List String} {heights : List Nat}
    {texts : List (List Char)}
    (h : Renders scope (texts.flatMap (' ' :: ·)) phrase subject predicate own written labels
      heights) :
    Renders scope (spaced texts) phrase subject predicate own written labels heights := by
  cases texts with
  | nil => exact h
  | cons first rest =>
    refine ⟨?_, h.names, h.labels, h.marks, h.triples, h.depth, h.order⟩
    rw [Turtle.spaced, intercalate_cons]
    exact Spells.of_space h.spells

/-- A list whose items are written is written as a collection. -/
theorem collection_renders {chain : Chain} {id : String} {texts : List (List Char)}
    (hfind : chains.find? (·.head = id) = some chain)
    (hlength : chain.items.length = chain.ids.length) {entries : List Entry}
    (hitems : entries.map (·.1) = chain.items) (htexts : entries.map (·.2.1) = texts)
    (h : ∀ entry ∈ entries, RendersTerm scope (chains.eraseP (·.head = id)) entry.1 entry.2.1
      entry.2.2) :
    ∃ phrase, RendersTerm scope chains (.blank id) ('(' :: spaced texts ++ [')']) phrase := by
  have hsame : chain.ids.length = entries.length := by
    rw [← hlength, ← hitems, List.length_map]
  obtain ⟨items, hcells, hterms, hrenders⟩ := items_render hsame h
  have hexpand : expand chains (.blank id) =
      chain.items.flatMap (expand (chains.eraseP (·.head = id))) ++ [chain] := by
    rw [expand]
    split <;> simp_all
  have hleaves : leaves chains (.blank id) =
      chain.items.flatMap (leaves (chains.eraseP (·.head = id))) := by
    rw [leaves]
    split <;> simp_all
  have hheight : height chains (.blank id) =
      deepest (chain.items.map (height (chains.eraseP (·.head = id)))) + 1 := by
    rw [height]
    split <;> simp_all
  have hhead := (find?_head hfind).2
  refine ⟨.resource (.collection items), ?_, fun subject predicate => ?_⟩
  · simp [Phrase.term, Phrase.node, hcells, Chain.ids_eq, hhead, Interpretation.plain]
  · have hspaced : (entries.flatMap fun entry => ' ' :: entry.2.1) = texts.flatMap (' ' :: ·) := by
      rw [← htexts, List.flatMap_map]
    have hall := hrenders subject predicate
    rw [hspaced, hitems] at hall
    have hrow := hall.spaced
    rw [hexpand, hleaves]
    refine ⟨?_, hrow.names, hrow.labels, ?_, ?_, ?_, List.nil_sublist _⟩
    · have hclose : Spells [')'] [.punct .closeParen] := .punct .closeParen (by simp) .nil
      exact Spells.punct .openParen (by simp)
        (hrow.spells.append hclose (.cons (by decide) []))
    · simpa [Phrase.marks, hcells] using hrow.marks.append_right chain.ids
    · have hchain : chainTriples ((items.cells.map fun cell =>
          Term.blank ((Interpretation.plain scope).node cell)).zip
            (items.itemTerms (.plain scope))) = chain.triples := by
        rw [hcells, hterms, hitems]
        rfl
      simpa [Phrase.triples, hchain] using hrow.triples.append_right chain.triples
    · simp [Phrase.depth, hrow.depth, hheight]

/-! ### Terms -/

/-- A term that is no collection is written with no chain in it. -/
theorem RendersTerm.of_single {phrase : Phrase String .object}
    (hexpand : expand chains t = []) (hspells : Spells text phrase.lexemes)
    (hnames : ∀ n ∈ phrase.names, n.InScope scope) (hlabels : phrase.labels = leaves chains t)
    (hmarks : phrase.marks = []) (htriples : ∀ subject predicate,
      phrase.triples (.plain scope) subject predicate = [])
    (hdepth : phrase.depth = 0) (hheight : height chains t = 0)
    (hterm : phrase.term (.plain scope) = t) : RendersTerm scope chains t text phrase := by
  refine ⟨hterm, fun subject predicate => ⟨hspells, hnames, hlabels, ?_, ?_, ?_,
    List.nil_sublist _⟩⟩
  · rw [hmarks, hexpand]
    exact .refl _
  · rw [htriples, hexpand]
    exact .refl _
  · simp [hdepth, hheight]

theorem blank_eq_ok {id : String} (h : Spelling.blank id = .ok text) :
    isBlankLabel id.toList = true ∧ text = '_' :: ':' :: id.toList := by
  by_cases hid : isBlankLabel id.toList = true
  · rw [Spelling.blank, if_pos hid] at h
    exact ⟨hid, (Except.ok.inj h).symm⟩
  · rw [Spelling.blank, if_neg hid] at h
    simp at h

/-- What is written for a term is a phrase that stands for it. -/
theorem term_renders (hspaces : Declarable spaces) (base : Option Iri)
    (hwritten : term options spaces chains t = .ok text) (habsolute : t.Absolute)
    (hitems : ∀ chain ∈ chains, ∀ item ∈ chain.items, item.Absolute)
    (hlength : ∀ chain ∈ chains, chain.items.length = chain.ids.length) :
    ∃ phrase, RendersTerm ⟨base, spaces⟩ chains t text phrase := by
  fun_induction term options spaces chains t generalizing text with
  | case1 chains name =>
    obtain rfl := Except.ok.inj hwritten
    obtain ⟨n, hn⟩ := iri_stands hspaces habsolute base
    exact ⟨.resource (.name n), .of_single (by simp [expand]) hn.spells
      (by simpa [Phrase.names] using hn.inScope) (by simp [leaves, Phrase.labels]) rfl
      (fun _ _ => rfl) rfl (by simp [height]) (congrArg Term.iri hn.iri)⟩
  | case2 chains id chain hfind ih =>
    have hchain := (find?_head hfind).1
    obtain ⟨texts, hitemTexts, hwritten⟩ := bind_eq_ok.1 hwritten
    obtain rfl := Except.ok.inj hwritten
    obtain ⟨entries, hfst, htexts, hall⟩ := entries_of_mapM hitemTexts fun item hitem text htext =>
      ih item htext (hitems chain hchain item hitem)
        (fun other hother => hitems other (List.mem_of_mem_eraseP hother))
        (fun other hother => hlength other (List.mem_of_mem_eraseP hother))
    exact collection_renders hfind (hlength chain hchain) hfst htexts hall
  | case3 chains id hfind =>
    obtain ⟨hlabel, rfl⟩ := blank_eq_ok hwritten
    have hnone : expand chains (.blank id) = [] := by
      rw [expand]
      split <;> simp_all
    have hleaf : leaves chains (.blank id) = [id] := by
      rw [leaves]
      split <;> simp_all
    have hflat : height chains (.blank id) = 0 := by
      rw [height]
      split <;> simp_all
    exact ⟨.resource (.blank id), .of_single hnone (.blank hlabel) (by simp [Phrase.names])
      (by simp [hleaf, Phrase.labels]) rfl (fun _ _ => rfl) rfl hflat rfl⟩
  | case4 chains l =>
    obtain ⟨constant, hconstant⟩ := literal_denotes hspaces hwritten habsolute base
    exact ⟨.constant constant, .of_single (by simp [expand]) hconstant.spells
      hconstant.inScope (by simp [leaves, Phrase.labels]) rfl (fun _ _ => rfl) rfl (by simp [height])
      (congrArg Term.literal (hconstant.literal _ rfl))⟩
  | case5 chains value => simp at hwritten

end Rdf.Turtle

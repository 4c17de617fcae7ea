import Mathlib.Data.List.Nodup
import Mathlib.Data.List.Perm.Basic
import Mathlib.Logic.Relation
import Rdf.Proofs.Isomorphism.Renaming
import Rdf.Proofs.Turtle.Meaning
import Rdf.Turtle.Printer

/-!
The chains that are written as collections.

A chain has a node of its own for each of its cells, and what these nodes are subjects of is what
the collection stands for. No node is in two chains, and only the head of a chain is referred to
from outside.
-/

namespace Rdf

theorem Term.blankId?_eq_some_iff {t : Term} {id : String} :
    t.blankId? = some id ↔ t = .blank id := by
  cases t <;> simp [blankId?]

namespace Turtle

variable {ts : Indexed} {t : Term} {cell : Cell} {cells : List Cell} {id a b : String}

/-- The nodes of the cells of a list, which begins at a term. -/
def linkIds (t : Term) (cells : List Cell) : List String :=
  (t :: cells.map (·.next)).filterMap Term.blankId?

@[simp]
theorem linkIds_iri (name : Iri) : linkIds (.iri name) [] = [] := rfl

@[simp]
theorem linkIds_blank (id : String) (cell : Cell) (cells : List Cell) :
    linkIds (.blank id) (cell :: cells) = id :: linkIds cell.next cells := by
  simp [linkIds, Term.blankId?]

namespace Chain

def ids (chain : Chain) : List String := linkIds (.blank chain.head) chain.cells

/-- What follows the cells of a chain. -/
def nexts (chain : Chain) : List Term := chain.cells.map (·.next)

/-- The triples that a chain stands for. -/
def triples (chain : Chain) : List Triple :=
  chainTriples ((chain.ids.map Term.blank).zip chain.items)

theorem ids_eq (chain : Chain) :
    chain.ids = chain.head :: chain.nexts.filterMap Term.blankId? := by
  simp [ids, linkIds, nexts, Term.blankId?]

end Chain

/-! ### Cells -/

namespace Indexed

theorem outgoing_of_cell (h : ts.cell? id = some cell) :
    (ts.outgoing id).Perm [(⟨.blank id, .iri Vocabulary.first, cell.item⟩, cell.firstIndex),
      (⟨.blank id, .iri Vocabulary.rest, cell.next⟩, cell.restIndex)] := by
  have hsubject : ∀ entry ∈ ts.outgoing id, entry.1.subject = .blank id := by
    intro entry hentry
    simpa using (List.mem_filter.1 hentry).2
  unfold cell? at h
  split at h
  · next s i t j hout =>
    have hs : s.subject = .blank id := hsubject (s, i) (by simp [hout])
    have ht : t.subject = .blank id := hsubject (t, j) (by simp [hout])
    obtain ⟨_, _, _⟩ := s
    obtain ⟨_, _, _⟩ := t
    obtain rfl : _ = Term.blank id := hs
    obtain rfl : _ = Term.blank id := ht
    rw [hout]
    split at h
    · next hpredicates =>
      obtain ⟨rfl, rfl⟩ := hpredicates
      obtain rfl := Option.some.inj h
      exact .refl _
    · split at h
      · next hpredicates =>
        obtain ⟨rfl, rfl⟩ := hpredicates
        obtain rfl := Option.some.inj h
        exact .swap _ _ _
      · simp at h
  · simp at h

theorem rest_mem (h : ts.cell? id = some cell) :
    (⟨.blank id, .iri Vocabulary.rest, cell.next⟩, cell.restIndex) ∈ ts :=
  List.mem_of_mem_filter ((outgoing_of_cell h).mem_iff.2 (by simp))

theorem mem_incoming {entry : Triple × Nat} :
    entry ∈ ts.incoming id ↔ entry ∈ ts ∧ entry.1.object = .blank id := by
  simp [incoming]

theorem isRest_iff :
    ts.isRest id = true ↔ ∃ entry, ts.incoming id = [entry] ∧
      entry.1.predicate = .iri Vocabulary.rest := by
  unfold isRest
  split
  · next hin => simp [hin]
  · next hnot => simpa using fun t i hin => (hnot t i hin).elim

theorem isHead_iff :
    ts.isHead id = true ↔ ∃ entry, ts.incoming id = [entry] ∧
      entry.1.predicate ≠ .iri Vocabulary.rest := by
  unfold isHead
  split
  · next hin => simp [hin]
  · next hnot => simpa using fun t i hin => (hnot t i hin).elim

theorem isRest_of_isHead (h : ts.isHead id = true) : ts.isRest id = false := by
  obtain ⟨entry, hin, hne⟩ := isHead_iff.1 h
  rw [Bool.eq_false_iff]
  intro hrest
  obtain ⟨other, hother, he⟩ := isRest_iff.1 hrest
  obtain rfl : entry = other := by simpa [hin] using hother
  exact hne he

/-! ### Links -/

/-- From a term on, the cells lead to the end of a list. -/
inductive Links (ts : Indexed) : Term → List Cell → Prop
  | nil : Links ts (.iri Vocabulary.nil) []
  | cons {id : String} {cell : Cell} {cells : List Cell} : ts.cell? id = some cell →
    Links ts cell.next cells → Links ts (.blank id) (cell :: cells)

namespace Links

theorem of_walk {bound : Nat} (h : ts.walk bound t = some cells) :
    Links ts t cells ∧ ∀ id ∈ linkIds t cells, ts.isRest id = true := by
  fun_induction walk ts bound t generalizing cells with
  | case1 =>
    obtain rfl := Option.some.inj h
    exact ⟨.nil, by simp⟩
  | case2 => simp at h
  | case3 bound id hrest cell hcell ih =>
    obtain ⟨later, hlater, rfl⟩ := Option.map_eq_some_iff.1 h
    obtain ⟨hlinks, hrests⟩ := ih hlater
    refine ⟨.cons hcell hlinks, ?_⟩
    rw [linkIds_blank]
    exact List.forall_mem_cons.2 ⟨hrest, hrests⟩
  | case4 => simp at h
  | case5 => simp at h
  | case6 => simp at h

theorem forall₂ (h : Links ts t cells) :
    List.Forall₂ (fun id cell => ts.cell? id = some cell) (linkIds t cells) cells := by
  induction h with
  | nil => exact .nil
  | cons hcell _ ih =>
    rw [linkIds_blank]
    exact .cons hcell ih

theorem unique {cells' : List Cell} (h : Links ts t cells) (h' : Links ts t cells') :
    cells = cells' := by
  induction h generalizing cells' with
  | nil =>
    cases h'
    rfl
  | cons hcell _ ih =>
    cases h' with
    | cons hcell' hlinks' =>
      obtain rfl : _ = _ := Option.some.inj (hcell.symm.trans hcell')
      rw [ih hlinks']

theorem of_mem (h : Links ts t cells) (hid : id ∈ linkIds t cells) :
    ∃ later, Links ts (.blank id) later ∧ later.length ≤ cells.length := by
  induction h with
  | nil => simp at hid
  | cons hcell hlinks ih =>
    rw [linkIds_blank] at hid
    obtain rfl | hid := List.mem_cons.1 hid
    · exact ⟨_, .cons hcell hlinks, Nat.le_refl _⟩
    · obtain ⟨later, hlater, hlength⟩ := ih hid
      exact ⟨later, hlater, Nat.le_succ_of_le hlength⟩

/-- No node comes twice, since it would have two lengths of cells behind it. -/
theorem nodup (h : Links ts t cells) : (linkIds t cells).Nodup := by
  induction h with
  | nil => simp
  | cons hcell hlinks ih =>
    rw [linkIds_blank]
    refine List.nodup_cons.2 ⟨fun hmem => ?_, ih⟩
    obtain ⟨later, hlater, hlength⟩ := hlinks.of_mem hmem
    obtain rfl := hlater.unique (.cons hcell hlinks)
    rw [List.length_cons] at hlength
    omega

/-- The first node of a list is what it begins at. -/
theorem headD_ids (h : Links ts t cells) {items : List Term} (hlength : items.length = cells.length) :
    ((((linkIds t cells).map Term.blank).zip items).map (·.1)).headD (.iri Vocabulary.nil) = t := by
  cases h with
  | nil => simp
  | cons =>
    cases items with
    | nil => simp at hlength
    | cons => simp [linkIds_blank]

/-- The triples of a list are those that its nodes are subjects of. -/
theorem triples_perm (h : Links ts t cells) :
    (chainTriples (((linkIds t cells).map Term.blank).zip (cells.map (·.item)))).Perm
      ((linkIds t cells).flatMap fun id => (ts.outgoing id).map (·.1)) := by
  induction h with
  | nil => simp [chainTriples]
  | cons hcell hlinks ih =>
    have hout := (outgoing_of_cell hcell).map (·.1)
    simp only [linkIds_blank, List.map_cons, List.zip_cons_cons, chainTriples,
      hlinks.headD_ids (List.length_map _), List.flatMap_cons]
    exact hout.symm.append ih

theorem indices_perm (h : Links ts t cells) :
    (cells.flatMap fun cell => [cell.firstIndex, cell.restIndex]).Perm
      ((linkIds t cells).flatMap fun id => (ts.outgoing id).map (·.2)) := by
  induction h with
  | nil => simp
  | cons hcell _ ih =>
    have hout := (outgoing_of_cell hcell).map (·.2)
    simp only [linkIds_blank, List.flatMap_cons]
    exact hout.symm.append ih

/-- The objects of the triples of a list are its items and what follows its cells. -/
theorem objects_perm (h : Links ts t cells) :
    ((chainTriples (((linkIds t cells).map Term.blank).zip (cells.map (·.item)))).map
      (·.object)).Perm (cells.map (·.item) ++ cells.map (·.next)) := by
  induction h with
  | nil => simp [chainTriples]
  | cons hcell hlinks ih =>
    simp only [linkIds_blank, List.map_cons, List.zip_cons_cons, chainTriples,
      hlinks.headD_ids (List.length_map _), List.cons_append]
    exact ((ih.cons _).trans List.perm_middle.symm).cons _

end Links

/-! ### Steps -/

/-- One cell is followed by another, which only it refers to. -/
def Step (ts : Indexed) (a b : String) : Prop :=
  ∃ cell, ts.cell? a = some cell ∧ cell.next = .blank b ∧ ts.isRest b = true

theorem Step.unique {c : String} (h : Step ts a c) (h' : Step ts b c) : a = b := by
  obtain ⟨cell, hcell, hnext, hrest⟩ := h
  obtain ⟨cell', hcell', hnext', -⟩ := h'
  obtain ⟨entry, hin, -⟩ := isRest_iff.1 hrest
  have h1 := mem_incoming.2 ⟨rest_mem hcell, hnext⟩
  have h2 := mem_incoming.2 ⟨rest_mem hcell', hnext'⟩
  rw [hin, List.mem_singleton] at h1 h2
  have hsubject := congrArg (fun entry => entry.1.subject) (h1.trans h2.symm)
  exact Term.blank.inj hsubject

theorem Step.isHead {c : String} (h : Step ts a c) : ts.isHead c = false := by
  obtain ⟨cell, -, -, hrest⟩ := h
  rw [Bool.eq_false_iff]
  intro hhead
  rw [isRest_of_isHead hhead] at hrest
  exact Bool.noConfusion hrest

theorem Links.reaches (h : Links ts t cells)
    (hrests : ∀ b, .blank b ∈ cells.map (·.next) → ts.isRest b = true)
    (hid : id ∈ linkIds t cells) : ∃ a, t = .blank a ∧ Relation.ReflTransGen (Step ts) a id := by
  induction h with
  | nil => simp at hid
  | @cons a cell cells hcell _ ih =>
    rw [linkIds_blank] at hid
    obtain rfl | hid := List.mem_cons.1 hid
    · exact ⟨id, rfl, .refl⟩
    · obtain ⟨b, hb, hreach⟩ := ih (fun b hb => hrests b (List.mem_cons_of_mem _ hb)) hid
      have hstep : Step ts a b := ⟨cell, hcell, hb, hrests b (by simp [hb])⟩
      exact ⟨a, rfl, .head hstep hreach⟩

/-- A node is reached from one head only. -/
theorem head_unique (ha : ts.isHead a = true) (hb : ts.isHead b = true)
    (h1 : Relation.ReflTransGen (Step ts) a id) (h2 : Relation.ReflTransGen (Step ts) b id) :
    a = b := by
  induction h1 with
  | refl =>
    cases h2 with
    | refl => rfl
    | tail _ hstep => exact absurd ha (by simp [hstep.isHead])
  | tail _ hstep ih =>
    cases h2 with
    | refl => exact absurd hb (by simp [hstep.isHead])
    | tail h2 hstep' =>
      obtain rfl := hstep.unique hstep'
      exact ih h2

/-! ### Chains -/

/-- The list of a head, which only its own cells refer to from within. -/
structure IsChain (ts : Indexed) (chain : Chain) : Prop where
  isHead : ts.isHead chain.head = true
  links : Links ts (.blank chain.head) chain.cells
  rests : ∀ b, .blank b ∈ chain.nexts → ts.isRest b = true

theorem isChain_of_chain? {chain : Chain} (h : ts.chain? id = some chain) :
    chain.head = id ∧ IsChain ts chain := by
  unfold chain? at h
  split at h
  · next hhead =>
    split at h
    · next cell hcell =>
      obtain ⟨cells, hwalk, rfl⟩ := Option.map_eq_some_iff.1 h
      obtain ⟨hlinks, hrests⟩ := Links.of_walk hwalk
      refine ⟨rfl, hhead, .cons hcell hlinks, fun b hb => hrests b ?_⟩
      exact List.mem_filterMap.2 ⟨.blank b, hb, rfl⟩
    · simp at h
  · simp at h

variable {chain other : Chain}

theorem isChain_of_mem (h : chain ∈ ts.chains) : IsChain ts chain := by
  obtain ⟨id, -, hchain⟩ := List.mem_filterMap.1 h
  exact (isChain_of_chain? hchain).2

theorem heads_nodup (ts : Indexed) : (ts.chains.map (·.head)).Nodup := by
  have hsub : ∀ ids : List String, ((ids.filterMap ts.chain?).map (·.head)).Sublist ids := by
    intro ids
    induction ids with
    | nil => simp
    | cons id ids ih =>
      cases hc : ts.chain? id with
      | none => simpa [hc] using ih.cons id
      | some chain =>
        have hhead := (isChain_of_chain? hc).1
        simpa [hc, hhead] using ih.cons_cons id
  exact (nodup_eraseDups _).sublist (hsub ts.subjects)

namespace IsChain

theorem eq_of_mem_ids (h : IsChain ts chain) (h' : IsChain ts other) (hid : id ∈ chain.ids)
    (hid' : id ∈ other.ids) : chain.head = other.head := by
  obtain ⟨a, ha, hreach⟩ := h.links.reaches h.rests hid
  obtain ⟨b, hb, hreach'⟩ := h'.links.reaches h'.rests hid'
  obtain rfl := Term.blank.inj ha
  obtain rfl := Term.blank.inj hb
  exact head_unique h.isHead h'.isHead hreach hreach'

theorem mem_indices (h : IsChain ts chain) {i : Nat} :
    i ∈ chain.indices ↔ ∃ id ∈ chain.ids, ∃ t, (t, i) ∈ ts.outgoing id := by
  have hperm := h.links.indices_perm
  rw [Chain.indices, hperm.mem_iff]
  simp [Chain.ids]

/-- An item is the object of the first triple of its cell. -/
theorem mem_items (h : IsChain ts chain) (ht : t ∈ chain.items) :
    ∃ id ∈ chain.ids, ∃ i, (⟨.blank id, .iri Vocabulary.first, t⟩, i) ∈ ts.outgoing id := by
  obtain ⟨cell, hcell, rfl⟩ := List.mem_map.1 ht
  obtain ⟨n, hn, rfl⟩ := List.mem_iff_getElem.1 hcell
  have hall := h.links.forall₂
  have hlength := hall.length_eq
  have hget := hall.get (by rw [hlength]; exact hn) hn
  refine ⟨_, List.get_mem _ _, _, (outgoing_of_cell hget).mem_iff.2 List.mem_cons_self⟩

end IsChain

end Indexed

end Turtle

end Rdf

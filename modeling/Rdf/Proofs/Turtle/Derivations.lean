import Mathlib.Algebra.Order.BigOperators.Group.List
import Mathlib.Algebra.Order.Group.Nat
import Mathlib.Data.List.Nodup
import Rdf.Proofs.Turtle.UniqueReading

/-!
Derivations of documents.

A row of lexemes has one derivation at most, apart from the marks of its nodes. The marks can be
chosen so that each node has one of its own, which is no label of the document.
-/

namespace Rdf.Turtle

variable {ν μ : Type} {part : Part}

/-! ### Documents without marks -/

/-- The phrase without its marks. -/
def Phrase.erase : {part : Part} → Phrase ν part → Phrase Unit part
  | _, name n => name n
  | _, blank label => blank label
  | _, emptyBracket _ => emptyBracket ()
  | _, bracket _ content => bracket () content.erase
  | _, collection items => collection items.erase
  | _, resource node => resource node.erase
  | _, constant literal => constant literal
  | _, noItems => noItems
  | _, item _ first rest => item () first.erase rest.erase
  | _, noObjects => noObjects
  | _, nextObject first rest => nextObject first.erase rest.erase
  | _, predicates verb first rest more => predicates verb first.erase rest.erase more.erase
  | _, noMore => noMore
  | _, semicolon rest => semicolon rest.erase
  | _, nextPredicates content => nextPredicates content.erase

def Statement.erase : Statement ν → Statement Unit
  | space word isDotted label iri => space word isDotted label iri
  | base word isDotted iri => base word isDotted iri
  | triples subject content => triples subject.erase content.erase
  | lone _ content => lone () content.erase

def Document.erase (document : Document ν) : Document Unit := document.map Statement.erase

theorem Phrase.erase_same (p : Phrase ν part) :
    p.erase.lexemes = p.lexemes ∧ p.erase.names = p.names ∧ p.erase.depth = p.depth ∧
      p.erase.labels = p.labels := by
  induction p with
  | name _ | blank _ | emptyBracket _ | constant _ | noItems | noObjects | noMore =>
    exact ⟨rfl, rfl, rfl, rfl⟩
  | bracket _ _ ih | collection _ ih | resource _ ih | semicolon _ ih | nextPredicates _ ih =>
    simp [erase, lexemes, names, depth, labels, ih]
  | item _ _ _ ih1 ih2 | nextObject _ _ ih1 ih2 =>
    simp [erase, lexemes, names, depth, labels, ih1, ih2]
  | predicates _ _ _ _ ih1 ih2 ih3 =>
    simp [erase, lexemes, names, depth, labels, ih1, ih2, ih3]

theorem Statement.erase_same (statement : Statement ν) :
    statement.erase.lexemes = statement.lexemes ∧ statement.erase.names = statement.names ∧
      statement.erase.depth = statement.depth ∧ statement.erase.labels = statement.labels ∧
        ∀ scope, statement.erase.scopeAfter scope = statement.scopeAfter scope := by
  cases statement with
  | space _ _ _ _ | base _ _ _ => exact ⟨rfl, rfl, rfl, rfl, fun _ => rfl⟩
  | triples subject content =>
    simp [erase, lexemes, names, depth, labels, scopeAfter, subject.erase_same, content.erase_same]
  | lone node content =>
    simp [erase, lexemes, names, depth, labels, scopeAfter, Phrase.lexemes, Phrase.depth,
      content.erase_same]

namespace Document

theorem erase_same (document : Document ν) :
    lexemes (erase document) = lexemes document ∧ labels (erase document) = labels document := by
  simp [erase, lexemes, labels, List.flatMap_map, Statement.erase_same]

theorem inScope_erase (document : Document ν) (scope : Scope) :
    InScope scope (erase document) ↔ InScope scope document := by
  induction document generalizing scope with
  | nil => exact Iff.rfl
  | cons statement document ih =>
    obtain ⟨-, hnames, -, -, hafter⟩ := statement.erase_same
    have hrest := ih (statement.scopeAfter scope)
    simp only [erase, List.map_cons, InScope, hnames, hafter] at hrest ⊢
    rw [hrest]

theorem isShallow_erase (document : Document ν) :
    IsShallow (erase document) ↔ IsShallow document := by
  simp [IsShallow, erase, Statement.erase_same]

/-- Documents with the same lexemes differ in their marks only. -/
theorem erase_eq_of_lexemes {d : Document ν} {e : Document μ} (h : lexemes d = lexemes e) :
    erase d = erase e := by
  apply eq_of_lexemes
  rw [(erase_same d).1, (erase_same e).1, h]

end Document

/-! ### Marks of their own -/

variable (name : Nat → μ)

namespace Phrase

/-- How many marks a phrase has, those of the cells that it is the row of among them. -/
def width (p : Phrase ν part) : Nat := (p.marks ++ p.cells).length

/-- The phrase with the marks that belong to numbers, from a number on. -/
def number : {part : Part} → Phrase ν part → Nat → Phrase μ part
  | _, Phrase.name n, _ => Phrase.name n
  | _, blank label, _ => blank label
  | _, emptyBracket _, k => emptyBracket (name k)
  | _, bracket _ content, k => bracket (name k) (content.number (k + 1))
  | _, collection items, k => collection (items.number k)
  | _, resource node, k => resource (node.number k)
  | _, constant literal, _ => constant literal
  | _, noItems, _ => noItems
  | _, item _ first rest, k =>
    item (name k) (first.number (k + 1)) (rest.number (k + 1 + first.width))
  | _, noObjects, _ => noObjects
  | _, nextObject first rest, k => nextObject (first.number k) (rest.number (k + first.width))
  | _, predicates verb first rest more, k =>
    predicates verb (first.number k) (rest.number (k + first.width))
      (more.number (k + (first.width + rest.width)))
  | _, noMore, _ => noMore
  | _, semicolon rest, k => semicolon (rest.number k)
  | _, nextPredicates content, k => nextPredicates (content.number k)

theorem erase_number (p : Phrase Unit part) (k : Nat) : (p.number name k).erase = p := by
  induction p generalizing k with
  | name _ | blank _ | emptyBracket _ | constant _ | noItems | noObjects | noMore => rfl
  | bracket _ _ ih | collection _ ih | resource _ ih | semicolon _ ih | nextPredicates _ ih =>
    simp [number, erase, ih]
  | item _ _ _ ih1 ih2 | nextObject _ _ ih1 ih2 => simp [number, erase, ih1, ih2]
  | predicates _ _ _ _ ih1 ih2 ih3 => simp [number, erase, ih1, ih2, ih3]

theorem cells_eq_nil (h : part ≠ .items) (p : Phrase ν part) : p.cells = [] := by
  cases p with
  | item _ _ _ => exact (h rfl).elim
  | _ => rfl

theorem width_eq (h : part ≠ .items) (p : Phrase ν part) : p.width = p.marks.length := by
  rw [width, cells_eq_nil h, List.append_nil]

end Phrase

/-- The marks of some numbers from a number on. -/
def namesFrom (k count : Nat) : List μ := (List.range' k count).map name

theorem append_perm_namesFrom {first second : List μ} {k a b : Nat}
    (h1 : first.Perm (namesFrom name k a)) (h2 : second.Perm (namesFrom name (k + a) b)) :
    (first ++ second).Perm (namesFrom name k (a + b)) := by
  rw [namesFrom, ← List.range'_append_1, List.map_append]
  exact h1.append h2

theorem cons_perm_namesFrom {marks : List μ} {k count : Nat}
    (h : marks.Perm (namesFrom name (k + 1) count)) :
    (name k :: marks).Perm (namesFrom name k (count + 1)) := by
  rw [namesFrom, List.range'_succ, List.map_cons]
  exact h.cons (name k)

/-- The marks of a phrase are those of as many numbers, each once. -/
theorem Phrase.marks_number (p : Phrase ν part) (k : Nat) :
    ((p.number name k).marks ++ (p.number name k).cells).Perm (namesFrom name k p.width) := by
  -- only items have cells, whose marks are not yet among those of their row
  have hmarks {part : Part} (h : part ≠ .items) {p : Phrase ν part} {k : Nat}
      (hp : ((p.number name k).marks ++ (p.number name k).cells).Perm
        (namesFrom name k p.width)) :
      (p.number name k).marks.Perm (namesFrom name k p.width) := by
    rwa [cells_eq_nil h, List.append_nil] at hp
  induction p generalizing k with
  | name _ | blank _ | emptyBracket _ | constant _ | noItems | noObjects | noMore => exact .refl _
  | bracket _ content ih =>
    have h := cons_perm_namesFrom name (hmarks (by simp) (ih (k + 1)))
    rw [width_eq (by simp)] at h
    simpa [number, marks, cells, width] using h
  | collection items ih => simpa [number, marks, cells, width] using ih k
  | resource _ ih | semicolon _ ih | nextPredicates _ ih =>
    simpa [number, marks, cells, width, cells_eq_nil] using ih k
  | item cell first rest ih1 ih2 =>
    have h := cons_perm_namesFrom name
      (append_perm_namesFrom name (hmarks (by simp) (ih1 (k + 1))) (ih2 _))
    have hwidth : (item cell first rest).width = first.width + rest.width + 1 := by
      rw [width_eq (by simp) first]
      simp [width, marks, cells]
      omega
    rw [hwidth]
    refine List.Perm.trans ?_ h
    simp only [number, marks, cells, ← List.append_assoc]
    exact List.perm_middle
  | nextObject first rest ih1 ih2 =>
    have h := append_perm_namesFrom name (hmarks (by simp) (ih1 k)) (hmarks (by simp) (ih2 _))
    rw [width_eq (by simp) first, width_eq (by simp) rest] at h
    simpa [number, marks, cells, width, cells_eq_nil] using h
  | predicates _ first rest more ih1 ih2 ih3 =>
    have h := append_perm_namesFrom name
      (append_perm_namesFrom name (hmarks (by simp) (ih1 k)) (hmarks (by simp) (ih2 _)))
      (hmarks (by simp) (ih3 _))
    rw [width_eq (by simp) first, width_eq (by simp) rest, width_eq (by simp) more,
      Nat.add_assoc first.marks.length] at h
    simpa [number, marks, cells, width, cells_eq_nil] using h

def Statement.number : Statement ν → Nat → Statement μ
  | space word isDotted label iri, _ => space word isDotted label iri
  | base word isDotted iri, _ => base word isDotted iri
  | triples subject content, k =>
    triples (subject.number name k) (content.number name (k + subject.width))
  | lone _ content, k => lone (name k) (content.number name (k + 1))

theorem Statement.erase_number (statement : Statement Unit) (k : Nat) :
    (statement.number name k).erase = statement := by
  cases statement <;> simp [number, erase, Phrase.erase_number]

theorem Statement.marks_number (statement : Statement ν) (k : Nat) :
    (statement.number name k).marks.Perm (namesFrom name k statement.marks.length) := by
  have hmarks {part : Part} (h : part ≠ .items) (p : Phrase ν part) (k : Nat) :
      (p.number name k).marks.Perm (namesFrom name k p.marks.length) := by
    have hp := p.marks_number name k
    rwa [Phrase.cells_eq_nil h, List.append_nil, p.width_eq h] at hp
  cases statement with
  | space _ _ _ _ | base _ _ _ => exact .refl _
  | triples subject content =>
    have h := append_perm_namesFrom name (hmarks (by simp) subject k) (hmarks (by simp) content _)
    rw [← subject.width_eq (by simp)] at h
    simpa [number, marks, subject.width_eq] using h
  | lone node content => exact cons_perm_namesFrom name (hmarks (by simp) content (k + 1))

namespace Document

def number : Document ν → Nat → Document μ
  | [], _ => []
  | statement :: rest, k => statement.number name k :: number rest (k + statement.marks.length)

theorem erase_number (document : Document Unit) (k : Nat) :
    erase (number name document k) = document := by
  induction document generalizing k with
  | nil => rfl
  | cons statement document ih =>
    have hrest := ih (k + statement.marks.length)
    simp only [erase] at hrest
    simp [number, erase, statement.erase_number, hrest]

theorem marks_number (document : Document ν) (k : Nat) :
    (marks (number name document k)).Perm (namesFrom name k (marks document).length) := by
  induction document generalizing k with
  | nil => exact .refl _
  | cons statement document ih =>
    have h := append_perm_namesFrom name (statement.marks_number name k) (ih _)
    simpa [number, marks] using h

end Document

/-- The document is a derivation of the lexemes, in which each node has a mark of its own that is
no label. -/
structure Derives (document : Document String) (lexemes : List Lexeme) : Prop where
  lexemes : document.lexemes = lexemes
  marks : document.marks.Nodup
  labels : ∀ l ∈ document.labels, l ∉ document.marks

/-- Long enough texts are no labels of a document, and as many of them as there are nodes can serve
as marks. -/
theorem Derives.exists_of_lexemes (document : Document Unit) :
    ∃ marked, Derives marked document.lexemes := by
  let bound := (document.labels.map String.length).sum
  let name (n : Nat) : String := String.ofList (List.replicate (bound + 1 + n) 'n')
  have hlength : ∀ n, (name n).length = bound + 1 + n := by simp [name]
  have hinj : Function.Injective name := by
    intro m n h
    have hsame := congrArg String.length h
    rw [hlength, hlength] at hsame
    omega
  let marked := Document.number name document 0
  have herase : Document.erase marked = document := Document.erase_number name document 0
  have hmarks := Document.marks_number name document 0
  obtain ⟨hlexemes, hlabels⟩ := Document.erase_same marked
  rw [herase] at hlexemes hlabels
  refine ⟨marked, hlexemes.symm, hmarks.nodup_iff.2 ?_, fun l hl hmark => ?_⟩
  · exact List.Nodup.map hinj (List.nodup_range' 1)
  · obtain ⟨n, -, rfl⟩ := List.mem_map.1 (hmarks.mem_iff.1 hmark)
    have hle : (name n).length ≤ bound :=
      List.single_le_sum (fun _ _ => Nat.zero_le _) _ (List.mem_map_of_mem (hlabels ▸ hl))
    rw [hlength] at hle
    omega

end Rdf.Turtle

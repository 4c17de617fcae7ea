import Rdf.Term.Label
import Rdf.Term.Triple

/-!
Conditions on terms and triples.

A term is valid when the checked constructors give it. It is writable when its id or its tag can
stand in a document, and absolute when its identifiers are.
-/

namespace Rdf

def Iri.Valid (iri : Iri) : Prop := iri.value ≠ ""

instance (iri : Iri) : Decidable iri.Valid := inferInstanceAs (Decidable (_ ≠ _))

theorem Iri.ofText_value {iri : Iri} (h : iri.Valid) : Iri.ofText iri.value = .ok iri := if_neg h

theorem Iri.Valid.of_isAbsolute {iri : Iri} (h : iri.isAbsolute = true) : iri.Valid := by
  intro he
  simp [Iri.isAbsolute, he, hasScheme, takeScheme?] at h

/-- A literal has no more than one of a tag, which is not empty, and a datatype. -/
structure Literal.Valid (l : Literal) : Prop where
  language_ne : l.language ≠ some ""
  single : l.language = none ∨ l.datatype = none
  datatype : ∀ iri ∈ l.datatype, iri.Valid

instance (l : Literal) : Decidable l.Valid :=
  decidable_of_iff (l.language ≠ some "" ∧ (l.language = none ∨ l.datatype = none) ∧
    ∀ iri ∈ l.datatype, iri.Valid)
    ⟨fun ⟨h1, h2, h3⟩ => ⟨h1, h2, h3⟩, fun ⟨h1, h2, h3⟩ => ⟨h1, h2, h3⟩⟩

theorem Literal.Valid.make_eq_ok {l : Literal} (h : l.Valid) :
    Literal.make (.text l.value) l.language (l.datatype.map .proper) = .ok l := by
  obtain ⟨hl, hs, -⟩ := h
  obtain ⟨value, language, datatype⟩ := l
  cases language with
  | none => cases datatype <;> simp [Literal.make]
  | some tag =>
    obtain rfl : datatype = none := by simpa using hs
    simpa [Literal.make] using hl

namespace Term

def Valid : Term → Prop
  | .iri name => name.Valid
  | .blank id => id ≠ ""
  | .literal l => l.Valid
  | .plain _ => False

instance (t : Term) : Decidable t.Valid := by cases t <;> unfold Valid <;> infer_instance

/-- The term can stand in a document: its label or its tag has the form of one. -/
def Writable : Term → Prop
  | .blank id => isBlankLabel id.toList = true
  | .literal l => ∀ tag ∈ l.language, isLanguageTag tag.toList = true
  | _ => True

instance (t : Term) : Decidable t.Writable := by cases t <;> unfold Writable <;> infer_instance

def Absolute : Term → Prop
  | .iri name => name.isAbsolute = true
  | .literal l => ∀ iri ∈ l.datatype, iri.isAbsolute = true
  | _ => True

instance (t : Term) : Decidable t.Absolute := by cases t <;> unfold Absolute <;> infer_instance

end Term

namespace Triple

/-- The checked constructors give the triple and all its terms. -/
structure Valid (t : Triple) : Prop where
  wellFormed : t.WellFormed
  subject : t.subject.Valid
  predicate : t.predicate.Valid
  object : t.object.Valid

instance (t : Triple) : Decidable t.Valid :=
  decidable_of_iff (t.WellFormed ∧ t.subject.Valid ∧ t.predicate.Valid ∧ t.object.Valid)
    ⟨fun ⟨h1, h2, h3, h4⟩ => ⟨h1, h2, h3, h4⟩, fun ⟨h1, h2, h3, h4⟩ => ⟨h1, h2, h3, h4⟩⟩

def Writable (t : Triple) : Prop := t.subject.Writable ∧ t.object.Writable

instance (t : Triple) : Decidable t.Writable := inferInstanceAs (Decidable (_ ∧ _))

def Absolute (t : Triple) : Prop := t.subject.Absolute ∧ t.predicate.Absolute ∧ t.object.Absolute

instance (t : Triple) : Decidable t.Absolute := inferInstanceAs (Decidable (_ ∧ _ ∧ _))

end Triple

/-! ### Sound terms -/

/-- The term can be written, and identifies the same wherever it is read. -/
structure Term.Sound (t : Term) : Prop where
  valid : t.Valid
  writable : t.Writable
  absolute : t.Absolute

structure Triple.Sound (t : Triple) : Prop where
  valid : t.Valid
  writable : t.Writable
  absolute : t.Absolute

theorem Term.Valid.isTerm {t : Term} (h : t.Valid) : t.isTerm = true := by
  cases t with
  | plain value => exact h.elim
  | _ => rfl

theorem Triple.Sound.of_terms {t : Triple} (hs : t.subject.isResource = true)
    (hp : t.predicate.isIri = true) (hsubject : t.subject.Sound) (hpredicate : t.predicate.Sound)
    (hobject : t.object.Sound) : t.Sound :=
  ⟨⟨⟨hs, hp, hobject.valid.isTerm⟩, hsubject.valid, hpredicate.valid, hobject.valid⟩,
    ⟨hsubject.writable, hobject.writable⟩,
    ⟨hsubject.absolute, hpredicate.absolute, hobject.absolute⟩⟩

theorem Term.Sound.iri {iri : Iri} (h : iri.isAbsolute = true) : (Term.iri iri).Sound :=
  ⟨Iri.Valid.of_isAbsolute h, trivial, h⟩

theorem Term.Sound.blank {id : String} (h : isBlankLabel id.toList = true) :
    (Term.blank id).Sound := by
  refine ⟨?_, h, trivial⟩
  rintro rfl
  simp [isBlankLabel] at h

end Rdf

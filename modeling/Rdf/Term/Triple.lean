import Rdf.Term.Basic

/-!
Triples.

`Triple.make` builds the triples of the data model, which are those that satisfy
`Triple.WellFormed`.
-/

namespace Rdf

structure Triple where
  subject : Term
  predicate : Term
  object : Term
  deriving DecidableEq, Repr

namespace Triple

/-- The subject is an identifier or a blank node, the predicate an identifier, the object a term. -/
def WellFormed (t : Triple) : Prop :=
  t.subject.isResource = true ∧ t.predicate.isIri = true ∧ t.object.isTerm = true

instance (t : Triple) : Decidable t.WellFormed := by unfold WellFormed; infer_instance

/-- The well-formed triple of three terms. The first part that does not fit is named. -/
def make (subject predicate object : Term) : Except Fault Triple :=
  if !subject.isResource then .error (.subjectKind subject.kindName)
  else if !predicate.isIri then .error (.predicateKind predicate.kindName)
  else if !object.isTerm then .error (.objectKind object.kindName)
  else .ok ⟨subject, predicate, object⟩

theorem make_eq_ok_iff {s p o : Term} {t : Triple} :
    make s p o = .ok t ↔ t = ⟨s, p, o⟩ ∧ t.WellFormed := by
  unfold make WellFormed
  constructor
  · intro h
    split at h <;> first | contradiction | skip
    split at h <;> first | contradiction | skip
    split at h <;> first | contradiction | skip
    simp only [Except.ok.injEq] at h
    subst h
    simp_all
  · rintro ⟨rfl, hs, hp, ho⟩
    simp [hs, hp, ho]

def key (t : Triple) : Triple := ⟨t.subject.key, t.predicate.key, t.object.key⟩

theorem WellFormed.isTerm {t : Triple} (h : t.WellFormed) :
    t.subject.isTerm = true ∧ t.predicate.isTerm = true ∧ t.object.isTerm = true := by
  obtain ⟨hs, hp, ho⟩ := h
  refine ⟨?_, ?_, ho⟩
  · revert hs
    cases t.subject <;> simp [Term.isResource, Term.isTerm]
  · revert hp
    cases t.predicate <;> simp [Term.isIri, Term.isTerm]

theorem WellFormed.key_eq {t : Triple} (h : t.WellFormed) : t.key = t := by
  obtain ⟨hs, hp, ho⟩ := h.isTerm
  simp [key, Term.key_of_isTerm, hs, hp, ho]

/-- A well-formed triple has the key of no other. -/
theorem key_eq_key_iff {t u : Triple} (h : t.WellFormed) : u.key = t.key ↔ u = t := by
  obtain ⟨hs, hp, ho⟩ := h.isTerm
  cases t
  cases u
  simp only [key, Triple.mk.injEq] at *
  rw [Term.key_eq_key_iff hs, Term.key_eq_key_iff hp, Term.key_eq_key_iff ho]

def isIn (t : Triple) (ts : List Triple) : Bool := ts.any (·.key = t.key)

/-- For the triples of the data model, to be in a set is to be one of its elements. -/
theorem isIn_iff_mem {t : Triple} {ts : List Triple} (h : t.WellFormed) :
    t.isIn ts = true ↔ t ∈ ts := by
  simp only [isIn, List.any_eq_true, decide_eq_true_eq, key_eq_key_iff h, exists_eq_right]

def terms (t : Triple) : List Term := [t.subject, t.predicate, t.object]

/-- The ids of the blank nodes that a triple is about, its subject before its object. -/
def blankIds (t : Triple) : List String := [t.subject, t.object].filterMap Term.blankId?

def display (t : Triple) : String :=
  "Triple(subject=" ++ t.subject.display ++ ", predicate=" ++ t.predicate.display
    ++ ", object=" ++ t.object.display ++ ")"

/-- The first plain value in a triple that cannot be looked up in a set. -/
def notKey? (t : Triple) : Option Plain :=
  t.terms.findSome? fun
    | .plain value => if value.isKey then none else some value
    | _ => none

end Triple

end Rdf

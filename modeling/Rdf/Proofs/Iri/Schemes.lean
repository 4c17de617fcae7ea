import Rdf.Iri.Basic

/-!
Schemes stay.

A text with a scheme keeps it when more is put behind it, and what is resolved against a base has
the scheme of the base or its own.
-/

namespace Rdf

/-- A letter, and letters, digits and marks behind it. -/
def IsScheme : List Char → Prop
  | [] => False
  | c :: rest => Text.isLetter c = true ∧ ∀ d ∈ rest, isSchemeChar d = true

theorem isScheme_of_take {text scheme rest : List Char}
    (h : takeScheme? text = some (scheme, rest)) :
    IsScheme scheme := by
  cases text with
  | nil => simp [takeScheme?] at h
  | cons c text =>
    simp only [takeScheme?] at h
    split at h
    · next hc =>
      split at h
      · obtain ⟨rfl, -⟩ := Prod.mk.inj (Option.some.inj h)
        exact ⟨hc, fun d hd => List.all_eq_true.1 List.all_takeWhile d hd⟩
      · simp at h
    · simp at h

theorem hasScheme_iff {text : List Char} :
    hasScheme text = true ↔ ∃ scheme rest, IsScheme scheme ∧ text = scheme ++ ':' :: rest := by
  constructor
  · intro h
    obtain ⟨⟨scheme, rest⟩, htake⟩ := Option.isSome_iff_exists.1 h
    exact ⟨scheme, rest, isScheme_of_take htake, (takeScheme?_eq_some htake).symm⟩
  · rintro ⟨scheme, rest, hscheme, rfl⟩
    cases scheme with
    | nil => exact hscheme.elim
    | cons c scheme =>
      have hcolon : isSchemeChar ':' = false := by decide
      have hdrop : (scheme ++ ':' :: rest).dropWhile isSchemeChar = ':' :: rest := by
        rw [List.dropWhile_append_of_pos hscheme.2]
        simp [hcolon]
      simp [hasScheme, takeScheme?, hscheme.1, hdrop]

theorem hasScheme_append {text : List Char} (h : hasScheme text = true) (more : List Char) :
    hasScheme (text ++ more) = true := by
  obtain ⟨scheme, rest, hscheme, rfl⟩ := hasScheme_iff.1 h
  exact hasScheme_iff.2 ⟨scheme, rest ++ more, hscheme, by simp⟩

namespace Reference

theorem scheme_split {base : List Char} (h : hasScheme base = true) :
    ∃ scheme, (split base).scheme = some scheme ∧ IsScheme scheme := by
  obtain ⟨⟨scheme, rest⟩, htake⟩ := Option.isSome_iff_exists.1 h
  exact ⟨scheme, by simp [split, cutScheme, htake], isScheme_of_take htake⟩

theorem scheme_transform (base r : Reference) :
    (base.transform r).scheme = base.scheme := by
  simp only [transform]
  split
  · rfl
  · split <;> rfl

end Reference

theorem hasScheme_resolveText {base : List Char} (h : hasScheme base = true) (text : List Char) :
    hasScheme (resolveText base text) = true := by
  by_cases htext : hasScheme text = true
  · rwa [resolveText, if_pos htext]
  · obtain ⟨scheme, hscheme, hform⟩ := Reference.scheme_split h
    have htarget := Reference.scheme_transform (Reference.split base) (Reference.split text)
    rw [resolveText, if_neg htext]
    simp only [Reference.unsplit, htarget, hscheme, Reference.schemeText, List.append_assoc,
      List.singleton_append]
    exact hasScheme_iff.2 ⟨scheme, _, hform, rfl⟩

theorem resolveText_ne_nil {base : List Char} (h : hasScheme base = true) (text : List Char) :
    resolveText base text ≠ [] := by
  have hscheme := hasScheme_resolveText h text
  intro he
  simp [he, hasScheme, takeScheme?] at hscheme

end Rdf

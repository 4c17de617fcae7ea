import Rdf.Proofs.Token.Labels
import Rdf.Token.Lexeme

/-!
Numbers are read back in the notation that they have.

A text that fits a notation has none of the richer ones: those need a mark that it cannot hold.
-/

namespace Rdf

open Text

namespace Pattern

variable {p q : Pattern} {kind : Char → Bool} {text taken rest : List Char}

/-! ### What numbers are made of -/

def isSign (c : Char) : Bool := c == '+' || c == '-'

def isExponentMark (c : Char) : Bool := c == 'e' || c == 'E'

/-- The characters of numbers in a notation. -/
def holds : NumberKind → Char → Bool
  | .integer, c => isDigit c || isSign c
  | .decimal, c => isDigit c || isSign c || c == '.'
  | .double, c => isDigit c || isSign c || c == '.' || isExponentMark c

def endsNumber (c : Char) : Bool := !holds .double c

theorem endsNumber_iff {c : Char} :
    endsNumber c = true ↔ isDigit c = false ∧ isSign c = false ∧ (c == '.') = false ∧
      isExponentMark c = false := by
  simp only [endsNumber, holds, Bool.not_eq_true', Bool.or_eq_false_iff, and_assoc]

theorem isLocal_ofKind (n : NumberKind) : IsLocal endsNumber (ofKind n) := by
  have hdigit : ∀ c, endsNumber c = true → isDigit c = false := fun c h => (endsNumber_iff.1 h).1
  have hsign : IsLocal endsNumber sign :=
    (isLocal_one fun c h => (endsNumber_iff.1 h).2.1).optional
  have hpoint : IsLocal endsNumber point := isLocal_one fun c h => (endsNumber_iff.1 h).2.2.1
  have hmark : IsLocal endsNumber exponentMark := isLocal_one fun c h => (endsNumber_iff.1 h).2.2.2
  have hdigits : IsLocal endsNumber (atLeastOne isDigit) := isLocal_atLeastOne hdigit
  have hmany : IsLocal endsNumber (many isDigit) := isLocal_many hdigit
  cases n with
  | integer => exact hsign.seq hdigits
  | decimal => exact hsign.seq (hmany.seq (hpoint.seq hdigits))
  | double =>
    have hmantissa : IsLocal endsNumber mantissa :=
      (hdigits.seq (hpoint.seq hmany).optional).orElse (hpoint.seq hdigits)
    exact hsign.seq (hmantissa.seq (hmark.seq (hsign.seq hdigits)))

theorem takes_ofKind (n : NumberKind) : Takes (holds n) (ofKind n) := by
  have hsign : Takes (holds n) sign := by
    refine (takes_one fun c h => ?_).optional
    have hc : isSign c = true := h
    cases n <;> simp [holds, hc]
  have hdigit : ∀ c, isDigit c = true → holds n c = true := by
    intro c h
    cases n <;> simp [holds, h]
  have hdigits : Takes (holds n) (atLeastOne isDigit) := takes_atLeastOne hdigit
  cases n with
  | integer => exact hsign.seq hdigits
  | decimal =>
    have hpoint : Takes (holds .decimal) point := takes_one fun c h => by simp_all [holds]
    exact hsign.seq ((takes_many hdigit).seq (hpoint.seq hdigits))
  | double =>
    have hpoint : Takes (holds .double) point := takes_one fun c h => by simp_all [holds]
    have hmark : Takes (holds .double) exponentMark := by
      apply takes_one
      intro c h
      have hc : isExponentMark c = true := h
      simp [holds, hc]
    have hmantissa : Takes (holds .double) mantissa :=
      (hdigits.seq (hpoint.seq (takes_many hdigit)).optional).orElse (hpoint.seq hdigits)
    exact hsign.seq (hmantissa.seq (hmark.seq (hsign.seq hdigits)))

theorem isExponentMark_of_decimal {c : Char} (h : holds .decimal c = true) :
    isExponentMark c = false := by
  rw [Bool.eq_false_iff]
  intro hmark
  have hc : c = 'e' ∨ c = 'E' := by simpa [isExponentMark] using hmark
  obtain rfl | rfl := hc <;> exact absurd h (by decide)

theorem ne_point_of_integer {c : Char} (h : holds .integer c = true) : (c == '.') = false := by
  rw [beq_eq_false_iff_ne]
  rintro rfl
  exact absurd h (by decide)

/-- A pattern never does without some kind of character. -/
def Needs (kind : Char → Bool) (p : Pattern) : Prop :=
  ∀ ⦃text taken rest : List Char⦄, p text = some (taken, rest) → ∃ c ∈ taken, kind c = true

theorem needs_one (kind : Char → Bool) : Needs kind (one kind) := by
  intro text taken rest h
  cases text with
  | nil => simp [one] at h
  | cons c text =>
    by_cases hc : kind c = true
    · simp only [one, hc, if_true, Option.some.injEq, Prod.mk.injEq] at h
      exact ⟨c, by simp [← h.1], hc⟩
    · simp [one, hc] at h

theorem Needs.seq_left (hp : Needs kind p) (q : Pattern) : Needs kind (seq p q) := by
  intro text taken rest h
  obtain ⟨first, middle, second, h1, -, rfl⟩ := seq_eq_some h
  obtain ⟨c, hmem, hc⟩ := hp h1
  exact ⟨c, List.mem_append_left _ hmem, hc⟩

theorem Needs.seq_right (p : Pattern) (hq : Needs kind q) : Needs kind (seq p q) := by
  intro text taken rest h
  obtain ⟨first, middle, second, -, h2, rfl⟩ := seq_eq_some h
  obtain ⟨c, hmem, hc⟩ := hq h2
  exact ⟨c, List.mem_append_right _ hmem, hc⟩

theorem needs_decimal : Needs (· == '.') (ofKind .decimal) :=
  (((needs_one _).seq_left _).seq_right _).seq_right _

theorem needs_double : Needs isExponentMark (ofKind .double) :=
  (((needs_one _).seq_left _).seq_right _).seq_right _

/-- A pattern takes nothing of a text without the characters that it needs. -/
theorem Needs.eq_none (hp : Needs kind p) (he : Exact p) (h : ∀ c ∈ text, kind c = false) :
    p text = none := by
  cases ht : p text with
  | none => rfl
  | some found =>
    obtain ⟨c, hmem, hc⟩ := hp ht
    have hfalse := h c (he ht ▸ List.mem_append_left _ hmem)
    rw [hc] at hfalse
    exact Bool.noConfusion hfalse

/-! ### How numbers begin -/

theorem startsNumber_digits (h : atLeastOne isDigit text = some (taken, rest)) :
    text.head?.any isDigit = true := by
  obtain ⟨first, middle, second, h1, -, -⟩ := seq_eq_some h
  cases text with
  | nil => simp [one] at h1
  | cons c text =>
    by_cases hc : isDigit c = true
    · simpa using hc
    · simp [one, hc] at h1

theorem startsNumber_of_digit (h : text.head?.any isDigit = true) :
    Lexeme.startsNumber text = true := by
  cases text with
  | nil => simp at h
  | cons c text =>
    have hc : isDigit c = true := by simpa using h
    simp [Lexeme.startsNumber, hc]

theorem startsNumber_point (h : seq point (atLeastOne isDigit) text = some (taken, rest)) :
    Lexeme.startsNumber text = true := by
  obtain ⟨first, middle, second, h1, h2, -⟩ := seq_eq_some h
  cases text with
  | nil => simp [point, one] at h1
  | cons c text =>
    by_cases hc : c = '.'
    · simp only [point, one, hc, beq_self_eq_true, if_true, Option.some.injEq, Prod.mk.injEq] at h1
      have hdigit := startsNumber_digits h2
      rw [← h1.2] at hdigit
      simp [Lexeme.startsNumber, hc, hdigit]
    · simp [point, one, hc] at h1

/-- A pattern that begins with a sign begins with it or as the rest of the pattern does. -/
theorem startsNumber_sign (hq : ∀ {text taken rest}, q text = some (taken, rest) →
    Lexeme.startsNumber text = true) (h : seq sign q text = some (taken, rest)) :
    Lexeme.startsNumber text = true := by
  obtain ⟨first, middle, second, h1, h2, -⟩ := seq_eq_some h
  cases text with
  | nil =>
    obtain ⟨-, rfl⟩ := Prod.mk.inj (Option.some.inj h1)
    exact hq h2
  | cons c text =>
    by_cases hc : isSign c = true
    · have hsign : c = '+' ∨ c = '-' := by simpa [isSign] using hc
      obtain rfl | rfl := hsign <;> simp [Lexeme.startsNumber]
    · have hnone : (c == '+' || c == '-') = false := by simpa [isSign] using hc
      have hsame : sign (c :: text) = some ([], c :: text) := by
        simp [sign, optional, one, hnone]
      obtain ⟨-, rfl⟩ := Prod.mk.inj (Option.some.inj (hsame.symm.trans h1))
      exact hq h2

theorem startsNumber_ofKind {n : NumberKind} (h : ofKind n text = some (taken, rest)) :
    Lexeme.startsNumber text = true := by
  cases n with
  | integer => exact startsNumber_sign (fun h => startsNumber_of_digit (startsNumber_digits h)) h
  | decimal =>
    refine startsNumber_sign (fun {text taken rest} h => ?_) h
    by_cases hdigit : text.head?.any isDigit = true
    · exact startsNumber_of_digit hdigit
    · obtain ⟨first, middle, second, h1, h2, -⟩ := seq_eq_some h
      have hmany : many isDigit text = some ([], text) := by
        cases text with
        | nil => rfl
        | cons c text =>
          have hc : isDigit c = false := by simpa using hdigit
          simp [many, hc]
      obtain ⟨-, rfl⟩ := Prod.mk.inj (Option.some.inj (hmany.symm.trans h1))
      exact startsNumber_point h2
  | double =>
    refine startsNumber_sign (fun {text taken rest} h => ?_) h
    obtain ⟨first, middle, second, h1, -, -⟩ := seq_eq_some h
    obtain h1 | ⟨-, h1⟩ := Option.or_eq_some_iff.1 h1
    · obtain ⟨_, _, _, hdigits, -, -⟩ := seq_eq_some h1
      exact startsNumber_of_digit (startsNumber_digits hdigits)
    · exact startsNumber_point h1

end Pattern

namespace Lexeme

open Pattern

variable {text rest : List Char} {n : NumberKind}

theorem startsNumber_append (h : startsNumber text = true) (rest : List Char) :
    startsNumber (text ++ rest) = true := by
  cases text with
  | nil => simp [startsNumber] at h
  | cons c text =>
    cases text with
    | nil =>
      have hc : isDigit c = true ∨ c = '+' ∨ c = '-' := by simpa [startsNumber, or_assoc] using h
      obtain hc | hc | hc := hc <;> simp [startsNumber, hc]
    | cons d text => exact h

theorem scanNumberAs_eq_none (h : ofKind n text = none) (hrest : AtSeparator rest) :
    scanNumberAs n (text ++ rest) = none := by
  have hlocal := isLocal_ofKind n text rest (hrest.all (by decide))
  simp [scanNumberAs, hlocal, h]

theorem scanNumberAs_written (h : fits (ofKind n) text = true) (hrest : AtSeparator rest) :
    scanNumberAs n (text ++ rest) = some (.number n (String.ofList text), rest) := by
  have htaken := (isLocal_ofKind n).append_of_fits (exact_ofKind n) h (hrest.all (by decide))
  simp [scanNumberAs, htaken, hrest.atBoundary]

theorem scanNumber_written (h : fits (ofKind n) text = true) (hrest : AtSeparator rest) :
    scanNumber (text ++ rest) = .ok (.number n (String.ofList text), rest) := by
  have hfound := scanNumberAs_written h hrest
  have htakes := takes_ofKind n ((fits_iff (exact_ofKind n)).1 h)
  cases n with
  | integer =>
    have hdouble : ofKind .double text = none := by
      refine needs_double.eq_none (exact_ofKind _) fun c hc => isExponentMark_of_decimal ?_
      have hinteger : (isDigit c || isSign c) = true := htakes c hc
      simp [holds, hinteger]
    have hdecimal : ofKind .decimal text = none :=
      needs_decimal.eq_none (exact_ofKind _) fun c hc => ne_point_of_integer (htakes c hc)
    simp [scanNumber, scanNumberAs_eq_none hdouble hrest, scanNumberAs_eq_none hdecimal hrest,
      hfound]
  | decimal =>
    have hdouble : ofKind .double text = none :=
      needs_double.eq_none (exact_ofKind _) fun c hc => isExponentMark_of_decimal (htakes c hc)
    simp [scanNumber, scanNumberAs_eq_none hdouble hrest, hfound]
  | double => simp [scanNumber, hfound]

/-- The character that a number begins with leads to no other kind of lexeme. -/
theorem scan_number {c : Char} (h : startsNumber (c :: rest) = true) (afterString : Bool) :
    isLayout c = false ∧ c ≠ '#' ∧ scan afterString (c :: rest) = scanNumber (c :: rest) := by
  have hstart : isDigit c = true ∨ c ∈ ['+', '-', '.'] := by
    simp only [startsNumber, Bool.or_eq_true, Bool.and_eq_true, beq_iff_eq] at h
    simp only [List.mem_cons, List.not_mem_nil, or_false]
    obtain ((hc | hc) | hc) | ⟨hc, -⟩ := h
    · exact .inl hc
    · exact .inr (.inl hc)
    · exact .inr (.inr (.inl hc))
    · exact .inr (.inr (.inr hc))
  have hnone : ['<', '"', '\'', '@', '^', '_', '#', ' ', '\t', '\r', '\n'].all
      (fun d => !(isDigit d || ['+', '-', '.'].contains d)) = true := by decide
  have hne : ∀ d ∈ ['<', '"', '\'', '@', '^', '_', '#', ' ', '\t', '\r', '\n'], c ≠ d := by
    intro d hd he
    have hd := List.all_eq_true.1 hnone d hd
    rw [← List.contains_iff_mem] at hstart
    obtain hstart | hstart := hstart <;> simp only [← he, hstart, Bool.or_true, Bool.true_or,
      Bool.not_true, Bool.false_eq_true] at hd
  simp only [List.forall_mem_cons] at hne
  simp [scan, isLayout, layout, h, hne]

end Lexeme

end Rdf

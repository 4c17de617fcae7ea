import Mathlib.Computability.Language
import Mathlib.Data.List.TakeWhile
import Rdf.Proofs.Token.Numbers

/-!
The notations of numbers as languages.

`numerals` says which texts are numbers of a notation, by concatenation and choice. A pattern takes
what it can and gives nothing back. It fits all texts of its language nevertheless, since what
stands behind a part never begins as the part would go on.
-/

namespace Rdf

open Text

namespace Numeral

/-! ### Languages -/

/-- The texts of a single character of a kind. -/
def one (kind : Char → Bool) : Language Char := {text | ∃ c, kind c = true ∧ text = [c]}

/-- The texts, perhaps empty, of characters of a kind. -/
def many (kind : Char → Bool) : Language Char := {text | ∀ c ∈ text, kind c = true}

def digits : Language Char := one isDigit * many isDigit

def sign : Language Char := 1 + one Pattern.isSign

def point : Language Char := one (· == '.')

/-- Digits and a point, with digits before the point or behind it, or no point. -/
def mantissa : Language Char := digits * (1 + point * many isDigit) + point * digits

def exponent : Language Char := one Pattern.isExponentMark * (sign * digits)

end Numeral

open Numeral in
/-- The numbers of a notation. -/
def numerals : NumberKind → Language Char
  | .integer => sign * digits
  | .decimal => sign * (many isDigit * (point * digits))
  | .double => sign * (mantissa * exponent)

/-! ### How the texts of a language begin -/

/-- The texts of a language begin with a character of a kind. -/
def Begins (kind : Char → Bool) (texts : Language Char) : Prop :=
  ∀ text ∈ texts, text.head?.any kind = true

namespace Begins

variable {kind part : Char → Bool} {texts more : Language Char}

theorem one (kind : Char → Bool) : Begins kind (Numeral.one kind) := by
  rintro text ⟨c, hc, rfl⟩
  simpa using hc

theorem mul (h : Begins kind texts) (more : Language Char) : Begins kind (texts * more) := by
  rintro text ⟨first, hfirst, second, -, rfl⟩
  have hhead := h first hfirst
  cases first with
  | nil => cases hhead
  | cons c first => simpa using hhead

theorem add (h : Begins kind texts) (hmore : Begins kind more) : Begins kind (texts + more) :=
  fun text htext => htext.elim (h text) (hmore text)

theorem mono (h : Begins part texts) (hkind : ∀ c, part c = true → kind c = true) :
    Begins kind texts := by
  intro text htext
  have hhead := h text htext
  cases text with
  | nil => cases hhead
  | cons c text => exact hkind c hhead

theorem many_mul (h : Begins kind texts) (hkind : ∀ c, part c = true → kind c = true) :
    Begins kind (Numeral.many part * texts) := by
  rintro text ⟨first, hfirst, second, hsecond, rfl⟩
  cases first with
  | nil => exact h second hsecond
  | cons c first => simpa using hkind c (hfirst c List.mem_cons_self)

theorem all (h : Begins kind texts) : ∀ text ∈ texts, text.head?.all kind = true := by
  intro text htext
  have hhead := h text htext
  cases text with
  | nil => rfl
  | cons c text => exact hhead

end Begins

namespace Pattern

variable {p q : Pattern} {kind stop : Char → Bool} {texts more : Language Char}

/-! ### Patterns and languages -/

/-- A pattern fits the texts of a language and no others. -/
def Accepts (p : Pattern) (texts : Language Char) : Prop :=
  ∀ text, fits p text = true ↔ text ∈ texts

/-- In front of the texts of a language a pattern takes what it fits. -/
def Separates (p : Pattern) (more : Language Char) : Prop :=
  ∀ ⦃text rest⦄, rest ∈ more → (p (text ++ rest) = some (text, rest) ↔ fits p text = true)

theorem IsLocal.separates (hl : IsLocal stop p) (hp : Exact p)
    (hmore : ∀ rest ∈ more, rest.head?.all stop = true) : Separates p more := by
  intro text rest hrest
  refine ⟨fun h => ?_, fun h => hl.append_of_fits hp h (hmore rest hrest)⟩
  rw [hl text rest (hmore rest hrest)] at h
  obtain ⟨⟨taken, left⟩, htaken, he⟩ := Option.map_eq_some_iff.1 h
  obtain ⟨rfl, hleft⟩ := Prod.mk.inj he
  obtain rfl : left = [] := List.append_left_eq_self.1 hleft
  exact (fits_iff hp).2 htaken

theorem separates_one (kind : Char → Bool) (more : Language Char) :
    Separates (one kind) more := by
  intro text rest _
  cases text with
  | nil =>
    cases rest with
    | nil => simp [one, fits]
    | cons c rest => by_cases hc : kind c = true <;> simp [one, fits, hc]
  | cons c text => by_cases hc : kind c = true <;> simp [one, fits, hc]

theorem accepts_one (kind : Char → Bool) : Accepts (one kind) (Numeral.one kind) := by
  intro text
  show _ ↔ ∃ c, kind c = true ∧ text = [c]
  cases text with
  | nil => simp [one, fits]
  | cons c rest => by_cases hc : kind c = true <;> simp [one, fits, hc]

theorem accepts_many (kind : Char → Bool) : Accepts (many kind) (Numeral.many kind) := by
  intro text
  show _ ↔ ∀ c ∈ text, kind c = true
  simp [fits, many, List.isEmpty_iff, List.dropWhile_eq_nil_iff]

theorem Accepts.seq (hp : Accepts p texts) (hq : Accepts q more) (hs : Separates p more)
    (hpe : Exact p) (hqe : Exact q) : Accepts (seq p q) (texts * more) := by
  intro text
  rw [fits_iff (hpe.seq hqe), Language.mem_mul]
  constructor
  · intro h
    obtain ⟨first, middle, second, hfirst, hsecond, rfl⟩ := seq_eq_some h
    obtain rfl : second = middle := by simpa using hqe hsecond
    have hmore := (hq second).1 ((fits_iff hqe).2 hsecond)
    exact ⟨first, (hp first).1 ((hs hmore).1 hfirst), second, hmore, rfl⟩
  · rintro ⟨first, hfirst, second, hsecond, rfl⟩
    have htaken := (hs hsecond).2 ((hp first).2 hfirst)
    have hrest := (fits_iff hqe).1 ((hq second).2 hsecond)
    simp [Pattern.seq, htaken, hrest]

theorem Accepts.optional (hp : Accepts p texts) (hpe : Exact p) :
    Accepts (optional p) (1 + texts) := by
  intro text
  rw [fits_iff hpe.optional, Language.mem_add, Language.mem_one, ← hp text, fits_iff hpe,
    Pattern.optional, Option.or_eq_some_iff]
  constructor
  · rintro (h | ⟨-, h⟩)
    · exact .inr h
    · exact .inl (Prod.mk.inj (Option.some.inj h)).1.symm
  · rintro (rfl | h)
    · cases hnil : p [] with
      | none => exact .inr ⟨rfl, rfl⟩
      | some found =>
        obtain ⟨htaken, hrest⟩ := List.append_eq_nil_iff.1 (hpe hnil)
        exact .inl (congrArg some (Prod.ext htaken hrest))
    · exact .inl h

theorem Accepts.orElse (hp : Accepts p texts) (hq : Accepts q more) (hpe : Exact p)
    (hqe : Exact q) (hmiss : ∀ text ∈ more, p text = none) :
    Accepts (orElse p q) (texts + more) := by
  intro text
  rw [fits_iff (hpe.orElse hqe), Language.mem_add, ← hp text, ← hq text, fits_iff hpe,
    fits_iff hqe, Pattern.orElse, Option.or_eq_some_iff]
  refine or_congr_right ⟨fun h => h.2, fun h => ⟨hmiss text ?_, h⟩⟩
  exact (hq text).1 ((fits_iff hqe).2 h)

/-! ### Numbers -/

def opensDigits (c : Char) : Bool := isDigit c || c == '.'

theorem not_isSign_of_opensDigits {c : Char} (h : opensDigits c = true) : isSign c = false := by
  rw [Bool.eq_false_iff]
  intro hsign
  have hc : c = '+' ∨ c = '-' := by simpa [isSign] using hsign
  obtain rfl | rfl := hc <;> exact absurd h (by decide)

theorem begins_digits : Begins isDigit Numeral.digits := (Begins.one isDigit).mul _

theorem begins_point (more : Language Char) : Begins (· == '.') (Numeral.point * more) :=
  (Begins.one _).mul more

theorem begins_opensDigits_of_digit (h : Begins isDigit texts) : Begins opensDigits texts :=
  h.mono fun c hc => by simp [opensDigits, hc]

theorem begins_opensDigits_of_point (h : Begins (· == '.') texts) : Begins opensDigits texts :=
  h.mono fun c hc => by simp [opensDigits, hc]

theorem separates_sign (h : Begins opensDigits more) : Separates sign more :=
  (isLocal_one fun _ hc => not_isSign_of_opensDigits hc).optional.separates exact_sign h.all

theorem accepts_sign : Accepts sign Numeral.sign := (accepts_one _).optional (exact_one _)

theorem accepts_digits : Accepts (atLeastOne isDigit) Numeral.digits :=
  (accepts_one _).seq (accepts_many _) (separates_one _ _) (exact_one _) (exact_many _)

theorem accepts_fraction :
    Accepts (seq point (atLeastOne isDigit)) (Numeral.point * Numeral.digits) :=
  (accepts_one _).seq accepts_digits (separates_one _ _) (exact_one _) (exact_atLeastOne _)

theorem not_isDigit_of_point {c : Char} (h : (c == '.') = true) : isDigit c = false := by
  obtain rfl : c = '.' := by simpa using h
  decide

theorem accepts_mantissa : Accepts mantissa Numeral.mantissa := by
  have hpoint : Accepts (seq point (many isDigit)) (Numeral.point * Numeral.many isDigit) :=
    (accepts_one _).seq (accepts_many _) (separates_one _ _) (exact_one _) (exact_many _)
  have hexact : Exact (seq point (many isDigit)) := (exact_one _).seq (exact_many _)
  -- a point, if anything, stands behind the digits before it
  have hseparates : Separates (atLeastOne isDigit) (1 + Numeral.point * Numeral.many isDigit) := by
    refine (isLocal_atLeastOne fun _ => not_isDigit_of_point).separates (exact_atLeastOne _) ?_
    rintro rest (rfl | hrest)
    · rfl
    · exact (begins_point _).all rest hrest
  refine (accepts_digits.seq (hpoint.optional hexact) hseparates (exact_atLeastOne _)
    hexact.optional).orElse accepts_fraction ((exact_atLeastOne _).seq hexact.optional)
    ((exact_one _).seq (exact_atLeastOne _)) fun text htext => ?_
  cases hdigits : atLeastOne isDigit text with
  | none => simp [Pattern.seq, hdigits]
  | some found =>
    have hdigit := startsNumber_digits hdigits
    have hhead := begins_point _ text htext
    cases text with
    | nil => cases hhead
    | cons c text => exact Bool.noConfusion ((not_isDigit_of_point hhead).symm.trans hdigit)

theorem exact_exponent : Exact (seq exponentMark (seq sign (atLeastOne isDigit))) :=
  (exact_one _).seq (exact_sign.seq (exact_atLeastOne _))

theorem accepts_exponent :
    Accepts (seq exponentMark (seq sign (atLeastOne isDigit))) Numeral.exponent := by
  have hsigned : Accepts (seq sign (atLeastOne isDigit)) (Numeral.sign * Numeral.digits) :=
    accepts_sign.seq accepts_digits (separates_sign (begins_opensDigits_of_digit begins_digits))
      exact_sign (exact_atLeastOne _)
  exact (accepts_one _).seq hsigned (separates_one _ _) (exact_one _)
    (exact_sign.seq (exact_atLeastOne _))

theorem not_opensDigits_of_isExponentMark {c : Char} (h : isExponentMark c = true) :
    isDigit c = false ∧ (c == '.') = false := by
  have hc : c = 'e' ∨ c = 'E' := by simpa [isExponentMark] using h
  obtain rfl | rfl := hc <;> decide

/-- The mark of an exponent ends what stands before it. -/
theorem separates_mantissa : Separates mantissa Numeral.exponent := by
  have hdigit : ∀ c, isExponentMark c = true → isDigit c = false :=
    fun _ h => (not_opensDigits_of_isExponentMark h).1
  have hpoint : IsLocal isExponentMark point :=
    isLocal_one fun _ h => (not_opensDigits_of_isExponentMark h).2
  have hdigits : IsLocal isExponentMark (atLeastOne isDigit) := isLocal_atLeastOne hdigit
  have hlocal : IsLocal isExponentMark mantissa :=
    (hdigits.seq (hpoint.seq (isLocal_many hdigit)).optional).orElse (hpoint.seq hdigits)
  exact hlocal.separates exact_mantissa ((Begins.one _).mul _).all

/-- A number fits its notation if and only if it is one of its numerals. -/
theorem accepts_ofKind (n : NumberKind) : Accepts (ofKind n) (numerals n) := by
  cases n with
  | integer =>
    exact accepts_sign.seq accepts_digits
      (separates_sign (begins_opensDigits_of_digit begins_digits)) exact_sign (exact_atLeastOne _)
  | decimal =>
    have hfraction : Exact (seq point (atLeastOne isDigit)) :=
      (exact_one _).seq (exact_atLeastOne _)
    have hseparates : Separates (many isDigit) (Numeral.point * Numeral.digits) :=
      (isLocal_many fun _ => not_isDigit_of_point).separates (exact_many _) (begins_point _).all
    have hbegins :
        Begins opensDigits (Numeral.many isDigit * (Numeral.point * Numeral.digits)) :=
      (begins_opensDigits_of_point (begins_point _)).many_mul fun c hc => by simp [opensDigits, hc]
    exact accepts_sign.seq ((accepts_many _).seq accepts_fraction hseparates (exact_many _)
      hfraction) (separates_sign hbegins) exact_sign ((exact_many _).seq hfraction)
  | double =>
    have hbegins : Begins opensDigits Numeral.mantissa :=
      (begins_opensDigits_of_digit (begins_digits.mul _)).add
        (begins_opensDigits_of_point (begins_point _))
    exact accepts_sign.seq (accepts_mantissa.seq accepts_exponent separates_mantissa
      exact_mantissa exact_exponent) (separates_sign (hbegins.mul _)) exact_sign
      (exact_mantissa.seq exact_exponent)

end Pattern

end Rdf

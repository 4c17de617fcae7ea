import Rdf.Term.Label
import Rdf.Token.Name

/-!
Labels and language tags end where a separator stands behind them.

A scanner may look at what follows a word. What it takes of the word is the same whatever comes
behind a separator, and of a label or a tag that can be written it takes all.
-/

namespace Rdf

open Text

/-! ### Separators -/

/-- Layout and the marks that stand directly behind a term. -/
def separators : List Char := layout ++ [',', ')', ';']

/-- Whether a text is at its end or goes on with a separator. -/
def AtSeparator (rest : List Char) : Prop := ∀ c ∈ rest.head?, c ∈ separators

theorem AtSeparator.cons {c : Char} (h : c ∈ separators) (rest : List Char) :
    AtSeparator (c :: rest) := by
  intro d hd
  obtain rfl : c = d := by simpa using hd
  exact h

theorem AtSeparator.all {rest : List Char} (h : AtSeparator rest) {kind : Char → Bool}
    (hkind : separators.all kind = true) : rest.head?.all kind = true := by
  cases rest with
  | nil => rfl
  | cons c rest => exact List.all_eq_true.1 hkind c (h c rfl)

theorem AtSeparator.atBoundary {rest : List Char} (h : AtSeparator rest) :
    atBoundary rest = true := by
  cases rest with
  | nil => rfl
  | cons c rest => exact h.all (by decide : separators.all isBoundaryChar = true)

namespace Scan

/-! ### Dotted names -/

/-- A name that holds accepted characters and dots only and does not end with a dot is taken as a
whole where neither goes on behind it. -/
theorem dotted_append_of_head {accept : Char → Bool} {name rest : List Char}
    (hall : ∀ c ∈ name, accept c = true ∨ c = '.') (hlast : name.getLast? ≠ some '.')
    (hrest : rest.head?.all (fun c => !accept c && c != '.') = true) :
    dotted accept (name ++ rest) = (name, rest) := by
  induction name with
  | nil =>
    cases rest with
    | nil => rfl
    | cons c rest =>
      have hc : accept c = false ∧ c ≠ '.' := by simpa using hrest
      simp [dotted, hc]
  | cons c name ih =>
    have hc : (accept c || c == '.') = true := by
      simpa using hall c List.mem_cons_self
    cases name with
    | nil =>
      have hdot : c ≠ '.' := by simpa using hlast
      have haccept : accept c = true := (hall c List.mem_cons_self).resolve_right hdot
      have htail := ih (by simp) (by simp)
      rw [List.nil_append] at htail
      simp [dotted, haccept, htail]
    | cons d name =>
      have htail := ih (fun e he => hall e (List.mem_cons_of_mem c he)) (by simpa using hlast)
      rw [List.cons_append, dotted, hc, if_pos rfl, htail]
      simp

theorem dotted_label {name rest : List Char} (h : isLabelTail name = true)
    (hrest : rest.head?.all (fun c => !isNameChar c && c != '.') = true) :
    dotted isNameChar (name ++ rest) = (name, rest) := by
  simp only [isLabelTail, Bool.and_eq_true, List.all_eq_true, Bool.or_eq_true, beq_iff_eq,
    bne_iff_ne] at h
  exact dotted_append_of_head (fun c hc => (h.1 c hc).symm) h.2 hrest

theorem blankLabel_append {label rest : List Char} (h : isBlankLabel label = true)
    (hrest : AtSeparator rest) : blankLabel (label ++ rest) = .ok (label, rest) := by
  cases label with
  | nil => simp [isBlankLabel] at h
  | cons c label =>
    obtain ⟨hc, htail⟩ := Bool.and_eq_true_iff.1 h
    have hd := dotted_label htail (hrest.all (by decide))
    simp [blankLabel, hc, hd]

end Scan

/-! ### Patterns -/

namespace Pattern

/-- What a pattern takes of a text does not depend on what comes behind it, where that begins with
a character of one kind. -/
def IsLocal (stop : Char → Bool) (p : Pattern) : Prop :=
  ∀ text rest, rest.head?.all stop = true →
    p (text ++ rest) = (p text).map fun taken => (taken.1, taken.2 ++ rest)

variable {stop kind : Char → Bool} {p q : Pattern}

theorem IsLocal.seq (hp : IsLocal stop p) (hq : IsLocal stop q) : IsLocal stop (seq p q) := by
  intro text rest hrest
  have h1 := hp text rest hrest
  cases hpt : p text with
  | none => simp [Pattern.seq, h1, hpt]
  | some first =>
    have h2 := hq first.2 rest hrest
    cases hqt : q first.2 <;> simp [Pattern.seq, h1, hpt, h2, hqt]

theorem IsLocal.orElse (hp : IsLocal stop p) (hq : IsLocal stop q) :
    IsLocal stop (orElse p q) := by
  intro text rest hrest
  simp only [Pattern.orElse, hp text rest hrest, hq text rest hrest]
  cases p text <;> simp

theorem IsLocal.optional (hp : IsLocal stop p) : IsLocal stop (optional p) := by
  intro text rest hrest
  simp only [Pattern.optional, hp text rest hrest]
  cases p text <;> simp

/-- A character that ends a text is not of a kind that goes on. -/
theorem isLocal_one (h : ∀ c, stop c = true → kind c = false) : IsLocal stop (one kind) := by
  intro text rest hrest
  cases text with
  | nil =>
    cases rest with
    | nil => rfl
    | cons c rest => simp [one, h c hrest]
  | cons c text =>
    simp only [List.cons_append, one]
    split <;> simp

theorem isLocal_many (h : ∀ c, stop c = true → kind c = false) : IsLocal stop (many kind) := by
  intro text rest hrest
  have hnone : rest.takeWhile kind = [] ∧ rest.dropWhile kind = rest := by
    cases rest with
    | nil => exact ⟨rfl, rfl⟩
    | cons c rest => simp [h c hrest]
  induction text with
  | nil => simp [many, hnone]
  | cons c text ih =>
    by_cases hc : kind c = true
    · simp only [many, Option.map_some, Option.some.injEq, Prod.mk.injEq] at ih ⊢
      simp [hc, ih]
    · simp [many, hc]

theorem isLocal_atLeastOne (h : ∀ c, stop c = true → kind c = false) :
    IsLocal stop (atLeastOne kind) := (isLocal_one h).seq (isLocal_many h)

/-- A pattern that fits a text takes all of it. -/
theorem fits_iff (hp : Exact p) {text : List Char} :
    fits p text = true ↔ p text = some (text, []) := by
  cases h : p text with
  | none => simp [fits, h]
  | some found =>
    obtain ⟨taken, rest⟩ := found
    have hexact := hp h
    cases rest with
    | nil => simp_all [fits]
    | cons c rest => simp [fits, h]

theorem IsLocal.append_of_fits (hl : IsLocal stop p) (hp : Exact p) {text rest : List Char}
    (h : fits p text = true) (hrest : rest.head?.all stop = true) :
    p (text ++ rest) = some (text, rest) := by
  rw [hl text rest hrest, (fits_iff hp).1 h]
  rfl

/-- A pattern takes characters of one kind only. -/
def Takes (kind : Char → Bool) (p : Pattern) : Prop :=
  ∀ ⦃text taken rest : List Char⦄, p text = some (taken, rest) → ∀ c ∈ taken, kind c = true

theorem Takes.seq (hp : Takes kind p) (hq : Takes kind q) : Takes kind (seq p q) := by
  intro text taken rest h c hc
  obtain ⟨first, middle, second, h1, h2, rfl⟩ := seq_eq_some h
  cases List.mem_append.1 hc with
  | inl hc => exact hp h1 c hc
  | inr hc => exact hq h2 c hc

theorem Takes.orElse (hp : Takes kind p) (hq : Takes kind q) : Takes kind (orElse p q) := by
  intro text taken rest h
  cases Option.or_eq_some_iff.1 h with
  | inl h => exact hp h
  | inr h => exact hq h.2

theorem Takes.optional (hp : Takes kind p) : Takes kind (optional p) := by
  intro text taken rest h
  cases Option.or_eq_some_iff.1 h with
  | inl h => exact hp h
  | inr h =>
    obtain ⟨rfl, -⟩ := Prod.mk.inj (Option.some.inj h.2)
    simp

theorem takes_one {part : Char → Bool} (h : ∀ c, part c = true → kind c = true) :
    Takes kind (one part) := by
  intro text taken rest ht c hc
  cases text with
  | nil => simp [one] at ht
  | cons d text =>
    by_cases hd : part d = true
    · simp only [one, hd, if_true, Option.some.injEq, Prod.mk.injEq] at ht
      obtain rfl : c = d := by simpa [← ht.1] using hc
      exact h c hd
    · simp [one, hd] at ht

theorem takes_many {part : Char → Bool} (h : ∀ c, part c = true → kind c = true) :
    Takes kind (many part) := by
  intro text taken rest ht c hc
  simp only [many, Option.some.injEq, Prod.mk.injEq] at ht
  rw [← ht.1] at hc
  exact h c (List.all_eq_true.1 List.all_takeWhile c hc)

theorem takes_atLeastOne {part : Char → Bool} (h : ∀ c, part c = true → kind c = true) :
    Takes kind (atLeastOne part) := (takes_one h).seq (takes_many h)

/-! ### Language tags -/

/-- Whether a character ends a language tag. -/
def endsTag (c : Char) : Bool := !isTagChar c && c != '-'

theorem tagTail_local {rest : List Char} (hrest : rest.head?.all endsTag = true)
    (text : List Char) :
    tagTail (text ++ rest) = ((tagTail text).1, (tagTail text).2 ++ rest) := by
  induction text with
  | nil =>
    cases rest with
    | nil => rfl
    | cons c rest =>
      have hc : isTagChar c = false ∧ c ≠ '-' := by simpa [endsTag] using hrest
      simp [tagTail, hc]
  | cons c text ih =>
    have hnext : (text ++ rest).head?.any isTagChar = text.head?.any isTagChar := by
      cases text with
      | nil =>
        cases rest with
        | nil => rfl
        | cons d rest =>
          have hd : isTagChar d = false ∧ d ≠ '-' := by simpa [endsTag] using hrest
          simp [hd]
      | cons d text => rfl
    simp only [List.cons_append, tagTail, hnext, ih]
    split <;> simp

theorem isLocal_languageTag : IsLocal endsTag languageTag := by
  have hletter : ∀ c, endsTag c = true → isLetter c = false := by
    intro c hc
    have h : isTagChar c = false ∧ c ≠ '-' := by simpa [endsTag] using hc
    simpa [isTagChar] using (Bool.or_eq_false_iff.1 h.1).1
  apply (isLocal_atLeastOne hletter).seq
  intro text rest hrest
  cases text with
  | nil =>
    cases rest with
    | nil => rfl
    | cons c rest =>
      have hc : isTagChar c = false ∧ c ≠ '-' := by simpa [endsTag] using hrest
      simp [hc]
  | cons c text =>
    by_cases hc : c = '-'
    · have ht := tagTail_local hrest (c :: text)
      rw [List.cons_append] at ht
      simp [hc ▸ ht, hc]
    · simp [hc]

theorem takes_languageTag : Takes (fun c => !endsTag c) languageTag := by
  have hletter : ∀ c, isLetter c = true → (!endsTag c) = true := by
    intro c hc
    simp [endsTag, isTagChar, hc]
  apply (takes_atLeastOne hletter).seq
  intro text taken rest h
  have htail : ∀ text : List Char, ∀ c ∈ (tagTail text).1, (!endsTag c) = true := by
    intro text
    induction text with
    | nil => simp [tagTail]
    | cons d text ih =>
      simp only [tagTail]
      split
      · next hd =>
        refine List.forall_mem_cons.2 ⟨?_, ih⟩
        cases Bool.or_eq_true_iff.1 hd with
        | inl hd => simp [endsTag, hd]
        | inr hd =>
          have hmark : d = '-' := by simpa using (Bool.and_eq_true_iff.1 hd).1
          simp [endsTag, hmark]
      · simp
  simp only [Option.some.injEq] at h
  split at h
  · have hfst : (tagTail text).1 = taken := congrArg Prod.fst h
    exact hfst ▸ htail text
  · obtain ⟨rfl, -⟩ := Prod.mk.inj h
    simp

theorem languageTag_append {tag rest : List Char} (h : isLanguageTag tag = true)
    (hrest : AtSeparator rest) : languageTag (tag ++ rest) = some (tag, rest) :=
  isLocal_languageTag.append_of_fits exact_languageTag h (hrest.all (by decide))

end Pattern

end Rdf

import Rdf.Proofs.Token.Lookahead
import Rdf.Proofs.Token.Numbers

/-!
Where lexemes end.

A lexeme is read the same when a spacer comes to stand somewhere behind it. For most lexemes this
asks nothing of the rest of the text. A number gives back what does not end where a number may, and
then it depends on the lexemes that are read instead.
-/

namespace Rdf

open Text Scan

/-! ### Patterns -/

namespace Pattern

variable {p q : Pattern} {kind : Char → Bool} {text taken left left' : List Char}

/-- What a pattern takes is taken still when a spacer comes to stand behind it. -/
def Keeps (p : Pattern) : Prop :=
  ∀ ⦃taken left left' : List Char⦄, Opens left left' →
    p (taken ++ left) = some (taken, left) → p (taken ++ left') = some (taken, left')

/-- A pattern that is not met is not met when a spacer comes to stand in the text. -/
def Misses (p : Pattern) : Prop :=
  ∀ ⦃text text' : List Char⦄, Opens text text' → p text = none → p text' = none

theorem Keeps.seq (hp : Keeps p) (hq : Keeps q) (hexact : Exact q) : Keeps (seq p q) := by
  intro taken left left' hopens h
  obtain ⟨first, middle, second, hfirst, hsecond, rfl⟩ := seq_eq_some h
  obtain rfl := hexact hsecond
  rw [List.append_assoc] at hfirst
  have hfirst' := hp (hopens.append second) hfirst
  have hsecond' := hq hopens hsecond
  simp [Pattern.seq, hfirst', hsecond']

theorem Keeps.orElse (hp : Keeps p) (hmiss : Misses p) (hq : Keeps q) : Keeps (orElse p q) := by
  intro taken left left' hopens h
  obtain h | ⟨hnone, h⟩ := Option.or_eq_some_iff.1 h
  · simp [Pattern.orElse, hp hopens h]
  · simp [Pattern.orElse, hmiss (hopens.append taken) hnone, hq hopens h]

theorem Keeps.optional (hp : Keeps p) (hmiss : Misses p) : Keeps (optional p) := by
  intro taken left left' hopens h
  obtain h | ⟨hnone, h⟩ := Option.or_eq_some_iff.1 h
  · simp [Pattern.optional, hp hopens h]
  · obtain rfl : [] = taken := (Prod.mk.inj (Option.some.inj h)).1
    rw [List.nil_append] at hnone ⊢
    simp [Pattern.optional, hmiss hopens hnone]

theorem Misses.seq (hp : Misses p) (hq : ∀ text, q text ≠ none) : Misses (seq p q) := by
  intro text text' hopens h
  cases hfirst : p text with
  | none => simp [Pattern.seq, hp hopens hfirst]
  | some found =>
    cases hsecond : q found.2 with
    | none => exact absurd hsecond (hq found.2)
    | some second => simp [Pattern.seq, hfirst, hsecond] at h

section Kinds

variable (hkind : spacers.all (fun c => !kind c) = true)

include hkind

theorem misses_one : Misses (one kind) := by
  intro text text' hopens h
  have hhead : text.head?.any kind = false := by
    cases text with
    | nil => rfl
    | cons c rest => simpa [one] using h
  have hhead' := hopens.any_eq_false hkind hhead
  cases text' with
  | nil => rfl
  | cons c rest =>
    have hc : kind c = false := by simpa using hhead'
    simp [one, hc]

omit hkind in
theorem keeps_one : Keeps (one kind) := by
  intro taken left left' hopens h
  obtain ⟨c, hc, -⟩ := needs_one kind h
  cases taken with
  | nil => simp at hc
  | cons d taken =>
    simp only [List.cons_append, one] at h ⊢
    split at h
    · next hd =>
      obtain ⟨htaken, -⟩ := Prod.mk.inj (Option.some.inj h)
      obtain rfl : taken = [] := (List.cons.inj htaken).2.symm
      simp [hd]
    · cases h

theorem keeps_many : Keeps (many kind) := by
  intro taken left left' hopens h
  simp only [many, Option.some.injEq, Prod.mk.injEq] at h ⊢
  induction taken with
  | nil =>
    have hhead : left.head?.any kind = false := by
      cases left with
      | nil => rfl
      | cons c rest => simpa [List.takeWhile_cons] using h.1
    have hhead' := hopens.any_eq_false hkind hhead
    cases left' with
    | nil => exact ⟨rfl, rfl⟩
    | cons c rest =>
      have hc : kind c = false := by simpa using hhead'
      simp [hc]
  | cons c taken ih =>
    by_cases hc : kind c = true
    · simp only [List.cons_append, List.takeWhile_cons, List.dropWhile_cons, hc, if_true,
        List.cons.injEq, true_and] at h ⊢
      exact ih h
    · simp [hc] at h

theorem keeps_atLeastOne : Keeps (atLeastOne kind) :=
  keeps_one.seq (keeps_many hkind) (exact_many kind)

theorem misses_atLeastOne : Misses (atLeastOne kind) := (misses_one hkind).seq nofun

end Kinds

theorem keeps_ofKind (n : NumberKind) : Keeps (ofKind n) := by
  have hsign : Keeps sign := keeps_one.optional (misses_one (by decide))
  have hdigits : Keeps (atLeastOne isDigit) := keeps_atLeastOne (by decide)
  have hmany : Keeps (many isDigit) := keeps_many (by decide)
  have hdot : Misses point := misses_one (by decide)
  have hfraction : Keeps (seq point (atLeastOne isDigit)) :=
    keeps_one.seq hdigits (exact_atLeastOne _)
  have hexactFraction : Exact (seq point (atLeastOne isDigit)) :=
    (exact_one _).seq (exact_atLeastOne _)
  cases n with
  | integer => exact hsign.seq hdigits (exact_atLeastOne _)
  | decimal =>
    exact hsign.seq (hmany.seq hfraction hexactFraction) ((exact_many _).seq hexactFraction)
  | double =>
    have hexponent : Keeps (seq sign (atLeastOne isDigit)) := hsign.seq hdigits (exact_atLeastOne _)
    have hexact : Exact (seq sign (atLeastOne isDigit)) := exact_sign.seq (exact_atLeastOne _)
    have htail : Keeps (optional (seq point (many isDigit))) :=
      (keeps_one.seq hmany (exact_many _)).optional (hdot.seq nofun)
    have hwhole : Keeps (seq (atLeastOne isDigit) (optional (seq point (many isDigit)))) :=
      hdigits.seq htail ((exact_one _).seq (exact_many _)).optional
    have hmiss : Misses (seq (atLeastOne isDigit) (optional (seq point (many isDigit)))) :=
      (misses_atLeastOne (by decide)).seq (by simp [Pattern.optional])
    exact hsign.seq ((hwhole.orElse hmiss hfraction).seq (keeps_one.seq hexponent hexact)
      ((exact_one _).seq hexact)) (exact_mantissa.seq ((exact_one _).seq hexact))

/-! ### Language tags -/

theorem tagTail_nil_opens (hopens : Opens left left') (h : tagTail left = ([], left)) :
    tagTail left' = ([], left') := by
  have hspacers : spacers.all (fun c => !(isTagChar c || c == '-')) = true := by decide
  cases hopens with
  | @here rest c hc behind =>
    have hnot : isTagChar c = false ∧ c ≠ '-' := by simpa using not_of_mem_spacers hspacers hc
    simp [tagTail, hnot]
  | @cons c rest rest' hrest =>
    simp only [tagTail] at h ⊢
    split at h
    · cases (Prod.mk.inj h).1
    · next hno =>
      have hhead : c == '-' → rest.head?.any isTagChar = false := by simp_all
      have hhead' : c == '-' → rest'.head?.any isTagChar = false := fun hc =>
        hrest.any_eq_false (by decide) (hhead hc)
      rw [if_neg (by simp_all)]

theorem tagTail_opens (hopens : Opens left left') (h : tagTail (taken ++ left) = (taken, left)) :
    tagTail (taken ++ left') = (taken, left') := by
  induction taken with
  | nil => exact tagTail_nil_opens hopens h
  | cons c taken ih =>
    simp only [List.cons_append, tagTail] at h ⊢
    split at h
    · next hc =>
      obtain ⟨htail, hleft⟩ := Prod.mk.inj h
      have hown : tagTail (taken ++ left) = (taken, left) :=
        Prod.ext (List.cons.inj htail).2 hleft
      have hc' : (isTagChar c || (c == '-' && (taken ++ left').head?.any isTagChar)) = true := by
        cases taken with
        | nil =>
          -- what is left does not begin with a character of tags, or it would have been taken
          have hhead : left.head?.any isTagChar = false := by
            cases left with
            | nil => rfl
            | cons d rest => simp_all [tagTail]
          simp_all
        | cons d taken => exact hc
      rw [if_pos hc', ih hown]
    · cases (Prod.mk.inj h).1

theorem keeps_languageTag : Keeps languageTag := by
  refine Keeps.seq (keeps_atLeastOne (by decide)) (fun taken left left' hopens h => ?_)
    exact_tagParts
  simp only [Option.some.injEq] at h ⊢
  cases taken with
  | nil =>
    obtain he | ⟨c, hc, he⟩ := hopens.head
    · rw [List.nil_append] at h ⊢
      rw [he]
      split
      · next hmark => exact tagTail_nil_opens hopens (by rwa [if_pos hmark] at h)
      · rfl
    · have hne : c ≠ '-' := by
        rintro rfl
        exact absurd hc (by decide)
      simp [he, hne]
  | cons c taken =>
    split at h
    · next hmark =>
      rw [if_pos (show (c :: taken ++ left').head? = some '-' from hmark)]
      exact tagTail_opens hopens h
    · cases (Prod.mk.inj h).1

/-! ### What numbers leave -/

/-- What a pattern leaves of a text. -/
def leaves (p : Pattern) (text : List Char) : Option (List Char) := (p text).map (·.2)

theorem leaves_eq_some_iff :
    leaves p text = some left ↔ ∃ taken, p text = some (taken, left) := by
  simp [leaves]

theorem leaves_seq (p q : Pattern) (text : List Char) :
    leaves (seq p q) text = (leaves p text).bind (leaves q) := by
  cases hp : p text with
  | none => simp [leaves, Pattern.seq, hp]
  | some found => cases hq : q found.2 <;> simp [leaves, Pattern.seq, hp, hq]

theorem leaves_orElse (p q : Pattern) (text : List Char) :
    leaves (orElse p q) text = (leaves p text).or (leaves q text) := by
  cases hp : p text <;> simp [leaves, Pattern.orElse, hp]

theorem leaves_optional (p : Pattern) (text : List Char) :
    leaves (optional p) text = (leaves p text).or (some text) := by
  cases hp : p text <;> simp [leaves, Pattern.optional, hp]

@[simp]
theorem leaves_one_nil (kind : Char → Bool) : leaves (one kind) [] = none := rfl

@[simp]
theorem leaves_one_cons (kind : Char → Bool) (c : Char) (rest : List Char) :
    leaves (one kind) (c :: rest) = if kind c then some rest else none := by
  by_cases hc : kind c = true <;> simp [leaves, one, hc]

theorem leaves_many (kind : Char → Bool) (text : List Char) :
    leaves (many kind) text = some ((leaves (atLeastOne kind) text).getD text) := by
  cases text with
  | nil => rfl
  | cons c rest =>
    by_cases hc : kind c = true <;> simp [leaves, many, atLeastOne, Pattern.seq, one, hc]

theorem leaves_atLeastOne_of_not (h : text.head?.any kind = false) :
    leaves (atLeastOne kind) text = none := by
  cases text with
  | nil => rfl
  | cons c rest =>
    have hc : kind c = false := by simpa using h
    simp [atLeastOne, leaves_seq, hc]

theorem leaves_atLeastOne_of_head (h : text.head?.any kind = true) :
    ∃ rest, leaves (atLeastOne kind) text = some rest := by
  cases text with
  | nil => cases h
  | cons c rest =>
    have hc : kind c = true := by simpa using h
    exact ⟨rest.dropWhile kind, by rw [atLeastOne, leaves_seq, leaves_one_cons, if_pos hc]; rfl⟩

def exponent : Pattern := seq exponentMark (seq sign (atLeastOne isDigit))

theorem head_of_leaves_exponent (h : leaves exponent text = some left) :
    text.head?.any isExponentMark = true := by
  cases text with
  | nil => cases h
  | cons c rest =>
    by_cases hc : isExponentMark c = true
    · exact hc
    · have hnone : (c == 'e' || c == 'E') = false := by simpa [isExponentMark] using hc
      simp [exponent, leaves_seq, exponentMark, hnone] at h

/-- Behind an integer a decimal goes on with a point and digits. -/
theorem leaves_decimal_of_integer (h : leaves (ofKind .integer) text = some left) :
    leaves (ofKind .decimal) text = leaves (seq point (atLeastOne isDigit)) left := by
  obtain ⟨middle, hsign, hdigits⟩ := Option.bind_eq_some_iff.1 (leaves_seq _ _ text ▸ h)
  have hmany : leaves (many isDigit) middle = some left := by simp [leaves_many, hdigits]
  simp [ofKind, decimal, leaves_seq sign, hsign, leaves_seq (many isDigit), hmany]

/-- Behind an integer a double goes on with a fraction, perhaps, and an exponent. -/
theorem leaves_double_of_integer (h : leaves (ofKind .integer) text = some left) :
    leaves (ofKind .double) text =
      leaves (seq (optional (seq point (many isDigit))) exponent) left := by
  obtain ⟨middle, hsign, hdigits⟩ := Option.bind_eq_some_iff.1 (leaves_seq _ _ text ▸ h)
  have hsame : ofKind .double = seq sign (seq mantissa exponent) := rfl
  have hmantissa : leaves mantissa middle = leaves (optional (seq point (many isDigit))) left := by
    have hwhole := leaves_seq (atLeastOne isDigit) (optional (seq point (many isDigit))) middle
    rw [mantissa, leaves_orElse, hwhole, hdigits, Option.bind_some, leaves_optional]
    cases leaves (seq point (many isDigit)) left <;> simp
  rw [hsame, leaves_seq sign, hsign, Option.bind_some, leaves_seq mantissa, hmantissa, leaves_seq]

/-- Behind a decimal a double goes on with an exponent. -/
theorem leaves_double_of_decimal (h : leaves (ofKind .decimal) text = some left) :
    leaves (ofKind .double) text = leaves exponent left := by
  obtain ⟨middle, hsign, hdecimal⟩ := Option.bind_eq_some_iff.1 (leaves_seq _ _ text ▸ h)
  obtain ⟨pointed, hmany, hfraction⟩ := Option.bind_eq_some_iff.1 (leaves_seq _ _ middle ▸ hdecimal)
  obtain ⟨digits, hpoint, hdigits⟩ := Option.bind_eq_some_iff.1 (leaves_seq _ _ pointed ▸ hfraction)
  have hsame : ofKind .double = seq sign (seq mantissa exponent) := rfl
  have hmantissa : leaves mantissa middle = some left := by
    rw [mantissa, leaves_orElse, leaves_seq]
    rw [leaves_many] at hmany
    cases hwhole : leaves (atLeastOne isDigit) middle with
    | none =>
      obtain rfl : middle = pointed := by simpa [hwhole] using hmany
      simpa using hfraction
    | some rest =>
      obtain rfl : rest = pointed := by simpa [hwhole] using hmany
      simp [leaves_optional, leaves_seq point, hpoint, leaves_many, hdigits]
  rw [hsame, leaves_seq sign, hsign, Option.bind_some, leaves_seq mantissa, hmantissa,
    Option.bind_some]

end Pattern

namespace Lexeme

open Pattern

variable {taken left left' more : List Char} {l : Lexeme} {n : NumberKind}

/-! ### Numbers -/

theorem scanNumberAs_eq_some_iff {text : List Char} :
    scanNumberAs n text = some (l, left) ↔ ∃ taken, ofKind n text = some (taken, left) ∧
      atBoundary left = true ∧ l = .number n (String.ofList taken) := by
  simp only [scanNumberAs]
  cases hp : ofKind n text with
  | none => simp
  | some found =>
    by_cases hb : atBoundary found.2 = true
    · simp only [hb, if_true, Option.some.injEq, Prod.mk.injEq]
      constructor
      · rintro ⟨rfl, rfl⟩
        exact ⟨found.1, rfl, hb, rfl⟩
      · rintro ⟨taken, rfl, -, rfl⟩
        exact ⟨rfl, rfl⟩
    · simp only [hb, if_false, reduceCtorEq, Option.some.injEq, false_iff]
      rintro ⟨taken, rfl, hboundary, -⟩
      exact hb hboundary

/-- Whether a text has a number in a notation is seen from what the notation leaves. -/
theorem scanNumberAs_eq_none_iff {text : List Char} :
    scanNumberAs n text = none ↔ ∀ left, leaves (ofKind n) text = some left →
      atBoundary left = false := by
  simp only [scanNumberAs, leaves]
  cases hp : ofKind n text with
  | none => simp
  | some found => simp

theorem scanNumber_eq_ok_iff {text : List Char} {found : Lexeme × List Char} :
    scanNumber text = .ok found ↔
      scanNumberAs .double text = some found ∨ scanNumberAs .double text = none ∧
        (scanNumberAs .decimal text = some found ∨ scanNumberAs .decimal text = none ∧
          scanNumberAs .integer text = some found) := by
  cases hdouble : scanNumberAs .double text <;> cases hdecimal : scanNumberAs .decimal text <;>
    cases hinteger : scanNumberAs .integer text <;>
    simp [scanNumber, fail, hdouble, hdecimal, hinteger]

theorem scanNumberAs_opens (hopens : Opens left left')
    (h : scanNumberAs n (taken ++ left) = some (l, left)) :
    scanNumberAs n (taken ++ left') = some (l, left') := by
  rw [scanNumberAs_eq_some_iff] at h ⊢
  obtain ⟨own, htaken, hboundary, rfl⟩ := h
  obtain rfl : own = taken := List.append_cancel_right (exact_ofKind n htaken)
  exact ⟨own, keeps_ofKind n hopens htaken, hopens.atBoundary hboundary, rfl⟩

/-- An integer that a point with digits follows is given back in front of no number. -/
theorem scanNumber_point (h : leaves (ofKind .integer) taken = some ('.' :: more))
    (hdouble : scanNumberAs .double taken = none) (hdecimal : scanNumberAs .decimal taken = none)
    (hdigit : more.head?.any isDigit = true) {found : Lexeme × List Char} :
    scanNumber ('.' :: more) ≠ .ok found := by
  have hsign : leaves sign ('.' :: more) = some ('.' :: more) := rfl
  have hmany : leaves (many isDigit) ('.' :: more) = some ('.' :: more) := rfl
  have hnone : leaves (atLeastOne isDigit) ('.' :: more) = none := rfl
  have hpoint : leaves point ('.' :: more) = some more := rfl
  have hinteger' : scanNumberAs .integer ('.' :: more) = none := by
    rw [scanNumberAs_eq_none_iff, ofKind, integer, leaves_seq, hsign, Option.bind_some, hnone]
    simp
  have hdecimal' : scanNumberAs .decimal ('.' :: more) = none := by
    rw [scanNumberAs_eq_none_iff, leaves_decimal_of_integer h] at hdecimal
    rwa [scanNumberAs_eq_none_iff, ofKind, decimal, leaves_seq, hsign, Option.bind_some,
      leaves_seq, hmany]
  have hdouble' : scanNumberAs .double ('.' :: more) = none := by
    obtain ⟨rest, hrest⟩ := leaves_atLeastOne_of_head hdigit
    have hsame : ofKind .double = seq sign (seq mantissa exponent) := rfl
    have hmantissa : leaves mantissa ('.' :: more) = some rest := by
      rw [mantissa, leaves_orElse, leaves_seq, hnone, leaves_seq, hpoint]
      exact hrest
    have hfraction : leaves (optional (seq point (many isDigit))) ('.' :: more) = some rest := by
      rw [leaves_optional, leaves_seq, hpoint, Option.bind_some, leaves_many, hrest]
      rfl
    rw [scanNumberAs_eq_none_iff, leaves_double_of_integer h, leaves_seq, hfraction] at hdouble
    rwa [scanNumberAs_eq_none_iff, hsame, leaves_seq, hsign, Option.bind_some, leaves_seq,
      hmantissa]
  rw [Ne, scanNumber_eq_ok_iff, hdouble', hdecimal', hinteger']
  simp

/-- A text with a colon has a number in a notation only up to the colon. -/
theorem scanNumberAs_colon {text rest : List Char}
    (h : scanNumberAs n (text ++ ':' :: rest) = none) (rest' : List Char) :
    scanNumberAs n (text ++ ':' :: rest') = none := by
  have hstop : ∀ rest, leaves (ofKind n) (text ++ ':' :: rest) =
      (leaves (ofKind n) text).map (· ++ ':' :: rest) := by
    intro rest
    have hcolon : (':' :: rest).head?.all endsNumber = true := by
      simp only [List.head?_cons, Option.all_some]
      decide
    rw [leaves, isLocal_ofKind n text (':' :: rest) hcolon, leaves, Option.map_map,
      Option.map_map]
    rfl
  rw [scanNumberAs_eq_none_iff, hstop] at h ⊢
  intro left hleft
  obtain ⟨own, hown, rfl⟩ := Option.map_eq_some_iff.1 hleft
  have hbefore := h (own ++ ':' :: rest) (by rw [hown]; rfl)
  cases own with
  | nil => exact hbefore
  | cons c own => exact hbefore

theorem no_mark_of_atBoundary (h : atBoundary left = true) :
    left.head?.any isExponentMark = false := by
  cases left with
  | nil => rfl
  | cons c rest =>
    rw [Bool.eq_false_iff]
    intro hmark
    have hc : c = 'e' ∨ c = 'E' := by simpa [isExponentMark] using hmark
    obtain rfl | rfl := hc <;> exact absurd h (by simp only [atBoundary]; decide)

/-- An integer that a point follows has not become a decimal, for the digits behind the point were
read as a number with it. -/
theorem no_digit_of_integer (hopens : Opens left ('.' :: more))
    (hdigit : ∀ {more}, left = '.' :: more → more.head?.any isDigit = true →
      ∃ found, scanNumber left = .ok found)
    (h : leaves (ofKind .integer) (taken ++ left) = some left)
    (hdouble : scanNumberAs .double (taken ++ left) = none)
    (hdecimal : scanNumberAs .decimal (taken ++ left) = none) :
    more.head?.any isDigit = false := by
  obtain ⟨before, rfl, hbehind⟩ := hopens.of_cons (by decide)
  refine hbehind.any_eq_false (by decide) ?_
  rw [Bool.eq_false_iff]
  intro hhead
  obtain ⟨found, hfound⟩ := hdigit rfl hhead
  exact scanNumber_point h hdouble hdecimal hhead hfound

/-- An integer that a point follows has not become a decimal. -/
theorem decimal_of_integer_eq_none
    (hpoint : ∀ {more}, left = '.' :: more → more.head?.any isDigit = false)
    (h : leaves (ofKind .integer) taken = some left) : scanNumberAs .decimal taken = none := by
  rw [scanNumberAs_eq_none_iff, leaves_decimal_of_integer h, leaves_seq]
  intro rest hrest
  obtain ⟨middle, hmiddle, hdigits⟩ := Option.bind_eq_some_iff.1 hrest
  cases left with
  | nil => cases hmiddle
  | cons c more =>
    by_cases hc : c = '.'
    · subst hc
      obtain rfl : more = middle := Option.some.inj hmiddle
      rw [leaves_atLeastOne_of_not (hpoint rfl)] at hdigits
      cases hdigits
    · simp [point, hc] at hmiddle

/-- An integer has become a double only with a point and the mark of an exponent behind it. -/
theorem mark_of_integer_of_double (hboundary : atBoundary left = true)
    (hpoint : ∀ {more}, left = '.' :: more → more.head?.any isDigit = false)
    (h : leaves (ofKind .integer) taken = some left) {rest : List Char}
    (hdouble : leaves (ofKind .double) taken = some rest) :
    ∃ more, left = '.' :: more ∧ more.head?.any isExponentMark = true := by
  rw [leaves_double_of_integer h, leaves_seq] at hdouble
  obtain ⟨middle, hmiddle, hexponent⟩ := Option.bind_eq_some_iff.1 hdouble
  have hhead := head_of_leaves_exponent hexponent
  rw [leaves_optional, leaves_seq] at hmiddle
  cases left with
  | nil =>
    obtain rfl : [] = middle := Option.some.inj hmiddle
    cases hhead
  | cons c more =>
    by_cases hc : c = '.'
    · subst hc
      have hnone := leaves_atLeastOne_of_not (hpoint rfl)
      obtain rfl : more = middle := by simpa [point, leaves_many, hnone] using hmiddle
      exact ⟨more, rfl, hhead⟩
    · obtain rfl : c :: more = middle := by simpa [point, hc] using hmiddle
      rw [no_mark_of_atBoundary hboundary] at hhead
      cases hhead

/-- A number in front of a point is read the same if digits behind the point are a number with it,
and a word behind the point is one that goes up to a colon. -/
theorem scanNumber_opens (hopens : Opens left left')
    (hdigit : ∀ {more}, left = '.' :: more → more.head?.any isDigit = true →
      ∃ found, scanNumber left = .ok found)
    (hmark : ∀ {more more'}, left = '.' :: more → left' = '.' :: more' →
      more'.head?.any isExponentMark = true →
      ∃ label rest rest', more = label ++ ':' :: rest ∧ more' = label ++ ':' :: rest')
    (h : scanNumber (taken ++ left) = .ok (l, left)) :
    scanNumber (taken ++ left') = .ok (l, left') := by
  rw [scanNumber_eq_ok_iff] at h ⊢
  obtain hdouble | ⟨hdouble, hdecimal | ⟨hdecimal, hinteger⟩⟩ := h
  · exact .inl (scanNumberAs_opens hopens hdouble)
  · have hdecimal' := scanNumberAs_opens hopens hdecimal
    obtain ⟨own, hown, hboundary, -⟩ := scanNumberAs_eq_some_iff.1 hdecimal'
    refine .inr ⟨?_, .inl hdecimal'⟩
    rw [scanNumberAs_eq_none_iff, leaves_double_of_decimal (leaves_eq_some_iff.2 ⟨own, hown⟩)]
    intro rest hrest
    have hhead := head_of_leaves_exponent hrest
    rw [no_mark_of_atBoundary hboundary] at hhead
    cases hhead
  · have hinteger' := scanNumberAs_opens hopens hinteger
    obtain ⟨own, hown, -, -⟩ := scanNumberAs_eq_some_iff.1 hinteger
    obtain ⟨own', hown', hboundary, -⟩ := scanNumberAs_eq_some_iff.1 hinteger'
    have hleaves' := leaves_eq_some_iff.2 ⟨own', hown'⟩
    have hpoint : ∀ {more}, left' = '.' :: more → more.head?.any isDigit = false := by
      rintro more rfl
      exact no_digit_of_integer hopens hdigit (leaves_eq_some_iff.2 ⟨own, hown⟩) hdouble hdecimal
    refine .inr ⟨scanNumberAs_eq_none_iff.2 fun rest hrest => ?_,
      .inr ⟨decimal_of_integer_eq_none hpoint hleaves', hinteger'⟩⟩
    obtain ⟨more', rfl, hhead⟩ := mark_of_integer_of_double hboundary hpoint hleaves' hrest
    obtain ⟨more, rfl, -⟩ := hopens.of_cons (by decide)
    obtain ⟨label, rest1, rest2, rfl, rfl⟩ := hmark rfl rfl hhead
    -- the words are the same up to the colon, and no number goes beyond it
    have hsplit : ∀ rest, taken ++ '.' :: (label ++ ':' :: rest) =
        (taken ++ '.' :: label) ++ ':' :: rest := by simp
    rw [hsplit] at hdouble hrest
    exact scanNumberAs_eq_none_iff.1 (scanNumberAs_colon hdouble rest2) rest hrest

/-! ### Names -/

theorem scanLabel_opens (hopens : Opens left left') (h : scanLabel (taken ++ left) = (taken, left)) :
    scanLabel (taken ++ left') = (taken, left') := by
  unfold scanLabel at h ⊢
  cases taken with
  | nil =>
    have hhead : left.head?.any isNameBase = false := by
      cases left with
      | nil => rfl
      | cons c rest =>
        rw [Bool.eq_false_iff]
        intro hbase
        have hc : isNameBase c = true := by simpa using hbase
        rw [List.nil_append, if_pos hbase] at h
        have hname := ((dotted_eq_nil_iff c rest).1 (congrArg Prod.fst h)).1
        simp [isNameChar, isNameStart, hc] at hname
    rw [List.nil_append, hopens.any_eq_false (by decide) hhead, if_neg Bool.false_ne_true]
  | cons c taken =>
    split at h
    · next hbase =>
      rw [if_pos (show (c :: taken ++ left').head?.any isNameBase = true from hbase)]
      exact dotted_opens isNameChar_spacers hopens h
    · cases (Prod.mk.inj h).1

/-- A local part takes something of what does not end a name. -/
theorem length_localPart_lt {text value rest : List Char} (hboundary : atBoundary text = false)
    (h : localPart text = .ok (value, rest)) : rest.length < text.length := by
  unfold localPart at h
  split at h
  · next hstart =>
    rw [gather] at h
    split at h
    · cases h
    · next hnone =>
      have hdots := (dotsLeadOn_of_localStep hnone).2
      cases text with
      | nil => cases hboundary
      | cons c text =>
        have hlocal : isLocalChar c = true := by
          simp only [startsLocal, Bool.or_eq_true] at hstart
          obtain (((h | h) | h) | h) | h := hstart <;> simp [isLocalChar, isNameChar, h]
        rw [Turtle.dotsLeadOn_of_isLocalChar hlocal] at hdots
        cases hdots
    · next piece left hsome =>
      split at h
      · cases h
      · next hlater =>
        obtain ⟨-, rfl⟩ := Prod.mk.inj (Except.ok.inj h)
        have hsuffix := gather_suffix length_localStep
          (fun hs => (within_localStep _).ok hs) hlater
        exact Nat.lt_of_le_of_lt hsuffix.length_le (length_localStep hsome)
  · cases h

/-- A name is a label and a colon, with a local part or without, or a word. -/
theorem scanName_eq_ok_iff {text : List Char} :
    scanName text = .ok (l, left) ↔ ∃ label rest, scanLabel text = (label, rest) ∧
      ((rest = ':' :: left ∧ atBoundary left = true ∧ l = .name (String.ofList label) "") ∨
        (∃ behind value, rest = ':' :: behind ∧ atBoundary behind = false ∧
          localPart behind = .ok (value, left) ∧
          l = .name (String.ofList label) (String.ofList value)) ∨
        (rest = left ∧ left.head? ≠ some ':' ∧ keyword? label = some l)) := by
  generalize hlabel : scanLabel text = found
  obtain ⟨label, rest⟩ := found
  simp only [scanName, hlabel, Prod.mk.injEq]
  constructor
  · intro h
    refine ⟨label, rest, ⟨rfl, rfl⟩, ?_⟩
    split at h
    · next behind =>
      split at h
      · next hboundary =>
        obtain ⟨rfl, rfl⟩ := Prod.mk.inj (Except.ok.inj h)
        exact .inl ⟨rfl, hboundary, rfl⟩
      · next hboundary =>
        split at h
        · cases h
        · next value behind' hvalue =>
          obtain ⟨rfl, rfl⟩ := Prod.mk.inj (Except.ok.inj h)
          exact .inr (.inl ⟨behind, value, rfl, by simpa using hboundary, hvalue, rfl⟩)
    · next hcolon =>
      split at h
      · next hkeyword =>
        obtain ⟨rfl, rfl⟩ := Prod.mk.inj (Except.ok.inj h)
        refine .inr (.inr ⟨rfl, fun hhead => ?_, hkeyword⟩)
        cases rest with
        | nil => cases hhead
        | cons c behind => exact hcolon behind (by rw [Option.some.inj hhead])
      · cases h
  · rintro ⟨_, _, ⟨rfl, rfl⟩, ⟨rfl, hboundary, rfl⟩ | ⟨behind, value, rfl, hboundary, hvalue, rfl⟩ |
      ⟨rfl, hhead, hkeyword⟩⟩
    · simp [hboundary]
    · simp [hboundary, hvalue]
    · split
      · simp at hhead
      · simp [hkeyword]

theorem scanName_opens (hopens : Opens left left')
    (h : scanName (taken ++ left) = .ok (l, left)) : scanName (taken ++ left') = .ok (l, left') := by
  have happend := scanLabel_append (taken ++ left)
  rw [scanName_eq_ok_iff] at h ⊢
  obtain ⟨label, rest, hlabel, ⟨rfl, hboundary, rfl⟩ |
    ⟨behind, value, rfl, hboundary, hvalue, rfl⟩ | ⟨rfl, hhead, hkeyword⟩⟩ := h
  all_goals rw [hlabel] at happend
  · have hsplit : (label ++ [':']) ++ left = taken ++ left := by simpa using happend
    obtain rfl := List.append_cancel_right hsplit
    rw [List.append_assoc, List.singleton_append] at hlabel ⊢
    exact ⟨label, _, scanLabel_opens (.cons ':' hopens) hlabel,
      .inl ⟨rfl, hopens.atBoundary hboundary, rfl⟩⟩
  · obtain ⟨more, rfl⟩ := (within_localPart behind).ok hvalue
    have hmore : more ≠ [] := by
      rintro rfl
      exact absurd (length_localPart_lt hboundary hvalue) (by simp)
    have hsplit : (label ++ ':' :: more) ++ left = taken ++ left := by simpa using happend
    obtain rfl := List.append_cancel_right hsplit
    rw [List.append_assoc, List.cons_append] at hlabel ⊢
    refine ⟨label, _, scanLabel_opens (.cons ':' (hopens.append more)) hlabel,
      .inr (.inl ⟨more ++ left', value, rfl, ?_, localPart_opens hopens hmore hvalue, rfl⟩)⟩
    cases more with
    | nil => exact absurd rfl hmore
    | cons c more => exact hboundary
  · obtain rfl : label = taken := List.append_cancel_right happend
    refine ⟨label, left', scanLabel_opens hopens hlabel, .inr (.inr ⟨rfl, ?_, hkeyword⟩)⟩
    obtain he | ⟨c, hc, he⟩ := hopens.head
    · rwa [he]
    · rw [he]
      rintro hcolon
      obtain rfl := Option.some.inj hcolon
      exact absurd hc (by decide)

theorem scanAtWord_opens {afterString : Bool} (hopens : Opens left left')
    (h : scanAtWord afterString (taken ++ left) = .ok (l, left)) :
    scanAtWord afterString (taken ++ left') = .ok (l, left') := by
  simp only [scanAtWord, fail] at h
  split at h
  · cases h
  next word rest hword =>
  have hrest : rest = left := by
    repeat' split at h
    all_goals simp only [reduceCtorEq, Except.ok.injEq, Prod.mk.injEq] at h
    all_goals exact h.2
  subst hrest
  obtain rfl : word = taken := List.append_cancel_right (exact_languageTag hword)
  simp only [scanAtWord, keeps_languageTag hopens hword]
  split at h
  · next hstring =>
    obtain ⟨rfl, -⟩ := Prod.mk.inj (Except.ok.inj h)
    rw [if_pos hstring]
  next hstring =>
  split at h
  · cases h
  next hdirective =>
  split at h
  · cases h
  next hbehind =>
  obtain ⟨rfl, -⟩ := Prod.mk.inj (Except.ok.inj h)
  rw [if_neg hstring, if_neg hdirective, if_neg]
  obtain he | ⟨c, hc, he⟩ := hopens.head
  · have hsame : atBoundary left' = atBoundary rest := by
      cases left' <;> cases rest <;> simp_all [atBoundary]
    rwa [hsame, he]
  · have hspacers : spacers.all isBoundaryChar = true := by decide
    cases left' with
    | nil => cases he
    | cons d behind =>
      obtain rfl := Option.some.inj he
      simp [atBoundary, List.all_eq_true.1 hspacers d hc]

/-! ### Lexemes -/

theorem startsNumber_opens {text text' : List Char} {c : Char} (hopens : Opens text text')
    (h : startsNumber (c :: text) = false) : startsNumber (c :: text') = false := by
  simp only [startsNumber, Bool.or_eq_false_iff, Bool.and_eq_false_iff] at h ⊢
  exact ⟨h.1, h.2.imp_right fun hhead => hopens.any_eq_false (by decide) hhead⟩

/-- A lexeme that is no number is read the same whatever stands behind the spacer. -/
theorem scan_opens {afterString : Bool} (hopens : Opens left left') (htaken : taken ≠ [])
    (hnumber : startsNumber (taken ++ left) = false)
    (h : scan afterString (taken ++ left) = .ok (l, left)) :
    scan afterString (taken ++ left') = .ok (l, left') := by
  obtain ⟨c, more, rfl⟩ := List.exists_cons_of_ne_nil htaken
  have hbehind := hopens.append more
  have hnumber' := startsNumber_opens hbehind hnumber
  rw [List.cons_append] at h hnumber ⊢
  simp only [scan, hnumber, hnumber', fail] at h ⊢
  split at h
  · next hc =>
    split at h
    · cases h
    · next value rest hvalue =>
      obtain ⟨rfl, rfl⟩ := Prod.mk.inj (Except.ok.inj h)
      have hvalue' := @isBlind_iriRef (c :: more) rest value hvalue left'
      rw [List.cons_append] at hvalue'
      rw [if_pos hc, hvalue']
  next hiri =>
  rw [if_neg hiri]
  split at h
  · next hc =>
    split at h
    · cases h
    · next delimiter value rest hvalue =>
      obtain ⟨rfl, rfl⟩ := Prod.mk.inj (Except.ok.inj h)
      have hvalue' := quotation_opens hc hopens hvalue
      rw [List.cons_append] at hvalue'
      rw [if_pos hc, hvalue']
  next hquote =>
  rw [if_neg hquote]
  split at h
  · next hc => rw [if_pos hc, scanAtWord_opens hopens h]
  next hat =>
  rw [if_neg hat]
  split at h
  · next hc =>
    split at h
    · next rest hrest =>
      obtain ⟨rfl, rfl⟩ := Prod.mk.inj (Except.ok.inj h)
      obtain rfl : more = ['^'] := List.append_cancel_right hrest
      rw [if_pos hc]
      rfl
    · cases h
  next hdatatype =>
  rw [if_neg hdatatype]
  split at h
  · next hc =>
    split at h
    · cases h
    · next label rest hlabel =>
      obtain ⟨rfl, rfl⟩ := Prod.mk.inj (Except.ok.inj h)
      have hlength := length_blankLabel hlabel
      cases more with
      | nil =>
        cases rest with
        | nil => simp at hc
        | cons d rest => exact absurd hlength (Nat.not_succ_le_self _)
      | cons d more =>
        rw [List.cons_append, List.tail_cons] at hlabel
        have hlabel' := blankLabel_opens hopens hlabel
        rw [if_pos ⟨hc.1, hc.2⟩, List.cons_append, List.tail_cons, hlabel']
  next hblank =>
  have hblank' : ¬(c = '_' ∧ (more ++ left').head? = some ':') := by
    rintro ⟨hc, hhead⟩
    obtain he | ⟨d, hd, he⟩ := hbehind.head
    · exact hblank ⟨hc, he ▸ hhead⟩
    · obtain rfl := Option.some.inj (he.symm.trans hhead)
      exact absurd hd (by decide)
  rw [if_neg hblank', if_neg Bool.false_ne_true]
  rw [if_neg Bool.false_ne_true] at h
  split at h
  · next mark hmark =>
    obtain ⟨rfl, hrest⟩ := Prod.mk.inj (Except.ok.inj h)
    obtain rfl : more = [] := by simpa using hrest
    rfl
  · split at h
    · next hc =>
      have hname := @scanName_opens (c :: more) left left' l hopens h
      rw [List.cons_append] at hname
      rw [if_pos hc, hname]
    · cases h

end Lexeme

end Rdf

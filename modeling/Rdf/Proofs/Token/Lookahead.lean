import Rdf.Proofs.Token.Escapes
import Rdf.Proofs.Token.Extent
import Rdf.Proofs.Token.Labels
import Rdf.Proofs.Token.Names

/-!
What scanners see of the text behind a lexeme.

A scanner that has read a lexeme may have looked at what follows it. `Opens` says that what follows
has been changed, from some place on, to something that begins with layout or with a comment there.
No scanner but the one for numbers then reads anything else: escapes do not look behind themselves,
and what the others look for, in the next character or behind a row of dots, is never layout.
-/

namespace Rdf

open Text Scan

/-- The characters that layout and comments begin with. -/
def spacers : List Char := layout ++ ['#']

/-- The second text goes on as the first one up to a place, where it goes on with a spacer. -/
inductive Opens : List Char → List Char → Prop
  | here {rest : List Char} {c : Char} (hc : c ∈ spacers) (behind : List Char) :
    Opens rest (c :: behind)
  | cons (c : Char) {rest rest' : List Char} (h : Opens rest rest') : Opens (c :: rest) (c :: rest')

namespace Opens

variable {rest rest' : List Char}

theorem append (taken : List Char) (h : Opens rest rest') :
    Opens (taken ++ rest) (taken ++ rest') := by
  induction taken with
  | nil => exact h
  | cons c taken ih => exact .cons c ih

theorem head (h : Opens rest rest') :
    rest'.head? = rest.head? ∨ ∃ c ∈ spacers, rest'.head? = some c := by
  cases h with
  | here hc => exact .inr ⟨_, hc, rfl⟩
  | cons c h => exact .inl rfl

/-- What holds of the next character and of spacers holds of the next character still. -/
theorem all (h : Opens rest rest') {kind : Char → Bool} (hkind : spacers.all kind = true)
    (hrest : rest.head?.all kind = true) : rest'.head?.all kind = true := by
  obtain he | ⟨c, hc, he⟩ := h.head
  · rwa [he]
  · rw [he]
    exact List.all_eq_true.1 hkind c hc

theorem any_eq_false (h : Opens rest rest') {kind : Char → Bool}
    (hkind : spacers.all (fun c => !kind c) = true) (hrest : rest.head?.any kind = false) :
    rest'.head?.any kind = false := by
  have hall := h.all hkind (by cases hr : rest.head? <;> simp_all)
  cases hr : rest'.head? <;> simp_all

/-- What begins with no spacer begins as before. -/
theorem of_cons {c : Char} {behind : List Char} (h : Opens rest (c :: behind))
    (hc : c ∉ spacers) : ∃ before, rest = c :: before ∧ Opens before behind := by
  cases h with
  | here hspacer => exact absurd hspacer hc
  | cons c h => exact ⟨_, rfl, h⟩

theorem atBoundary (h : Opens rest rest') (hrest : atBoundary rest = true) :
    atBoundary rest' = true := by
  have hkind : spacers.all isBoundaryChar = true := by decide
  have hall := h.all hkind (by cases rest <;> simp_all [Text.atBoundary])
  cases rest' <;> simp_all [Text.atBoundary]

end Opens

namespace Scan

variable {α : Type} {taken left left' : List Char}

/-! ### Escapes -/

/-- What is left behind a fixed beginning is left behind what is taken after it. -/
theorem exists_taken {start text : List Char} (hsuffix : left <:+ text)
    (h : taken ++ left = start ++ text) : ∃ more, text = more ++ left ∧ taken = start ++ more := by
  obtain ⟨more, rfl⟩ := hsuffix
  exact ⟨more, rfl, List.append_cancel_right (by rw [h, List.append_assoc])⟩

/-- A scanner that sees nothing of what it leaves. -/
def IsBlind (scan : List Char → Scan α) : Prop :=
  ∀ ⦃taken left : List Char⦄ ⦃value : α⦄, scan (taken ++ left) = .ok (value, left) →
    ∀ left', scan (taken ++ left') = .ok (value, left')

theorem isBlind_hexNumber (count : Nat) (what : String) : IsBlind (hexNumber count what) := by
  intro taken left value h left'
  have hlength := length_hexNumber h
  simp only [List.length_append] at hlength
  obtain rfl : count = taken.length := by omega
  simp only [hexNumber, List.take_left, List.drop_left, fail] at h ⊢
  split at h
  · next hhex =>
    obtain ⟨rfl, -⟩ := Prod.mk.inj (Except.ok.inj h)
    rw [if_pos hhex]
  · cases h

theorem isBlind_lowHalf (high : Nat) : IsBlind (lowHalf high) := by
  intro taken left value h left'
  generalize htext : taken ++ left = text at h
  unfold lowHalf at h
  split at h
  · next digits =>
    split at h
    · cases h
    · next low rest hlow =>
      split at h
      · next hrange =>
        obtain ⟨rfl, rfl⟩ := Prod.mk.inj (Except.ok.inj h)
        have hsuffix := (within_hexNumber 4 "\\u" digits).ok hlow
        have hstart : ['\\', 'u'] ++ digits = '\\' :: 'u' :: digits := rfl
        obtain ⟨more, rfl, rfl⟩ := exists_taken hsuffix (htext.trans hstart.symm)
        have hdigits := isBlind_hexNumber 4 "\\u" hlow left'
        simp [lowHalf, hdigits, hrange]
      · cases h
  · cases h

theorem isBlind_unicodeEscape : IsBlind unicodeEscape := by
  intro taken left value h left'
  generalize htext : taken ++ left = text at h
  unfold unicodeEscape at h
  split at h
  · next digits =>
    split at h
    · cases h
    · next n rest hn =>
      split at h
      · cases h
      · next hrange =>
        obtain ⟨rfl, rfl⟩ := Prod.mk.inj (Except.ok.inj h)
        have hsuffix := (within_hexNumber 8 "\\U" digits).ok hn
        have hstart : ['\\', 'U'] ++ digits = '\\' :: 'U' :: digits := rfl
        obtain ⟨more, rfl, rfl⟩ := exists_taken hsuffix (htext.trans hstart.symm)
        have hdigits := isBlind_hexNumber 8 "\\U" hn left'
        simp only [List.cons_append, List.nil_append, unicodeEscape, hdigits, if_neg hrange]
  · next digits =>
    split at h
    · cases h
    · next n rest hn =>
      have hwithin := (within_hexNumber 4 "\\u" digits).ok hn
      have hstart : ['\\', 'u'] ++ digits = '\\' :: 'u' :: digits := rfl
      split at h
      · cases h
      · next hlow =>
        split at h
        · next hhigh =>
          have hsuffix := (within_lowHalf n rest).ok h
          obtain ⟨second, rfl⟩ := hsuffix
          obtain ⟨first, rfl⟩ := hwithin
          have hfirst := isBlind_hexNumber 4 "\\u" hn (second ++ left')
          have hsecond := isBlind_lowHalf n h left'
          obtain rfl : taken = '\\' :: 'u' :: (first ++ second) :=
            List.append_cancel_right (by rw [htext]; simp)
          simp only [List.cons_append, List.append_assoc, unicodeEscape, hfirst, hlow, hhigh,
            hsecond]
          simp
        · next hhigh =>
          obtain ⟨rfl, rfl⟩ := Prod.mk.inj (Except.ok.inj h)
          obtain ⟨more, rfl, rfl⟩ := exists_taken hwithin (htext.trans hstart.symm)
          have hdigits := isBlind_hexNumber 4 "\\u" hn left'
          simp [unicodeEscape, hdigits, hlow, hhigh]
  · cases h

/-- A Unicode escape begins with a backslash and its letter. -/
theorem start_of_unicodeEscape {text : List Char} {found : Char × List Char}
    (h : unicodeEscape text = .ok found) :
    ∃ letter digits, text = '\\' :: letter :: digits ∧ isEscapeLetter letter = true := by
  unfold unicodeEscape at h
  split at h
  · exact ⟨_, _, rfl, rfl⟩
  · exact ⟨_, _, rfl, rfl⟩
  · cases h

theorem isBlind_stringEscape : IsBlind stringEscape := by
  intro taken left value h left'
  generalize htext : taken ++ left = text at h
  unfold stringEscape at h
  split at h
  · next c letter rest =>
    have hstart : [c, letter] ++ rest = c :: letter :: rest := rfl
    split at h
    · next hletter =>
      rw [← htext] at h
      have hblind := isBlind_unicodeEscape h left'
      have hown := isBlind_unicodeEscape h []
      rw [List.append_nil] at hown
      obtain ⟨mark, digits, rfl, -⟩ := start_of_unicodeEscape hown
      obtain ⟨-, rfl, -⟩ : '\\' = c ∧ mark = letter ∧ digits ++ left = rest := by
        simpa using htext
      simpa [stringEscape, hletter] using hblind
    · next hletter =>
      split at h
      · next d hd =>
        obtain ⟨rfl, rfl⟩ := Prod.mk.inj (Except.ok.inj h)
        obtain ⟨more, hmore, rfl⟩ := exists_taken List.suffix_rfl (htext.trans hstart.symm)
        obtain rfl : more = [] := by simpa using hmore
        simp [stringEscape, hletter, hd]
      · cases h
  · cases h

theorem isBlind_percentEscape : IsBlind percentEscape := by
  intro taken left value h left'
  generalize htext : taken ++ left = text at h
  unfold percentEscape at h
  split at h
  · next c high low rest =>
    have hstart : [c, high, low] ++ rest = c :: high :: low :: rest := rfl
    split at h
    · next hhex =>
      obtain ⟨rfl, rfl⟩ := Prod.mk.inj (Except.ok.inj h)
      obtain ⟨more, hmore, rfl⟩ := exists_taken List.suffix_rfl (htext.trans hstart.symm)
      obtain rfl : more = [] := by simpa using hmore
      simp only [List.append_nil, List.cons_append, List.nil_append, percentEscape, hhex, if_true]
    · cases h
  · cases h

theorem isBlind_localEscape : IsBlind localEscape := by
  intro taken left value h left'
  generalize htext : taken ++ left = text at h
  unfold localEscape at h
  split at h
  · next c escaped rest =>
    have hstart : [c, escaped] ++ rest = c :: escaped :: rest := rfl
    split at h
    · next hmem =>
      obtain ⟨rfl, rfl⟩ := Prod.mk.inj (Except.ok.inj h)
      obtain ⟨more, hmore, rfl⟩ := exists_taken List.suffix_rfl (htext.trans hstart.symm)
      obtain rfl : more = [] := by simpa using hmore
      simp only [List.append_nil, List.cons_append, List.nil_append, localEscape, hmem, if_true]
    · cases h
  · cases h

/-! ### Loops -/

section Loops

variable {step step' : List Char → Scan (Option (List Char))}
  (progress : ∀ {text piece rest}, step text = .ok (some piece, rest) → rest.length < text.length)
  (progress' : ∀ {text piece rest}, step' text = .ok (some piece, rest) →
    rest.length < text.length)

theorem gather_suffix
    (hsuffix : ∀ {text rest piece}, step text = .ok (piece, rest) → rest <:+ text)
    {text pieces rest : List Char} (h : gather step progress text = .ok (pieces, rest)) :
    rest <:+ text := by
  fun_induction gather step progress text generalizing pieces rest with
  | case1 => cases h
  | case2 text left hs =>
    obtain ⟨-, rfl⟩ := Prod.mk.inj (Except.ok.inj h)
    exact hsuffix hs
  | case3 => cases h
  | case4 text piece left hs more rest' hg ih =>
    obtain ⟨-, rfl⟩ := Prod.mk.inj (Except.ok.inj h)
    exact (ih hg).trans (hsuffix hs)

/-- A loop whose steps see no difference sees none. What the later steps take may matter to the
earlier ones. -/
theorem gather_opens (holds : List Char → Prop)
    (hsuffix : ∀ {text rest piece}, step text = .ok (piece, rest) → rest <:+ text)
    (hlast : ∀ {taken}, step (taken ++ left) = .ok (none, left) →
      step' (taken ++ left') = .ok (none, left') ∧ holds taken)
    (hmore : ∀ {taken more piece}, holds more →
      step (taken ++ (more ++ left)) = .ok (some piece, more ++ left) →
      step' (taken ++ (more ++ left')) = .ok (some piece, more ++ left') ∧ holds (taken ++ more))
    {pieces : List Char} (h : gather step progress (taken ++ left) = .ok (pieces, left)) :
    gather step' progress' (taken ++ left') = .ok (pieces, left') ∧ holds taken := by
  generalize htext : taken ++ left = text at h
  fun_induction gather step progress text generalizing pieces taken with
  | case1 => cases h
  | case2 text rest hs =>
    obtain ⟨rfl, rfl⟩ := Prod.mk.inj (Except.ok.inj h)
    subst htext
    obtain ⟨hnone, hholds⟩ := hlast hs
    exact ⟨gather_none progress' hnone, hholds⟩
  | case3 => cases h
  | case4 text piece rest hs later rest' hg ih =>
    obtain ⟨rfl, rfl⟩ := Prod.mk.inj (Except.ok.inj h)
    obtain ⟨more, rfl⟩ := gather_suffix progress hsuffix hg
    obtain ⟨first, rfl⟩ := hsuffix hs
    obtain ⟨hlater, hholds⟩ := ih rfl hg
    obtain ⟨hsome, hboth⟩ := hmore hholds hs
    obtain rfl : taken = first ++ more :=
      List.append_cancel_right (by rw [htext, List.append_assoc])
    rw [List.append_assoc]
    exact ⟨gather_some progress' hsome hlater, hboth⟩

end Loops

/-! ### Identifiers -/

theorem IsBlind.asPiece {scan : List Char → Scan Char} (h : IsBlind scan)
    {piece : Option (List Char)} (hs : asPiece (scan (taken ++ left)) = .ok (piece, left))
    (left' : List Char) : Scan.asPiece (scan (taken ++ left')) = .ok (piece, left') := by
  obtain ⟨c, rfl, hc⟩ := asPiece_eq_ok hs
  simp only [Scan.asPiece, h hc left']

/-- The opening matters for faults only. -/
theorem iriStep_opening {opening text : List Char} {found : Option (List Char) × List Char}
    (h : iriStep opening text = .ok found) (opening' : List Char) :
    iriStep opening' text = .ok found := by
  cases text with
  | nil => cases h
  | cons c rest =>
    by_cases hline : endsLine c = true
    · simp [iriStep, hline] at h
    · simpa [iriStep, hline] using h

theorem iriStep_suffix {opening text rest : List Char} {piece : Option (List Char)}
    (h : iriStep opening text = .ok (piece, rest)) : rest <:+ text :=
  (@within_iriStep text text List.suffix_rfl).ok (iriStep_opening h text)

theorem isBlind_iriStep (opening : List Char) : IsBlind (iriStep opening) := by
  intro taken left piece h left'
  have hlength : left.length < (taken ++ left).length := by
    cases piece with
    | none => exact length_iriStep_none h
    | some piece => exact length_iriStep h
  cases taken with
  | nil => simp at hlength
  | cons c more =>
    simp only [List.cons_append, iriStep, fail] at h ⊢
    split at h
    · cases h
    next hline =>
    rw [if_neg hline]
    split at h
    · next hend =>
      obtain ⟨rfl, hrest⟩ := Prod.mk.inj (Except.ok.inj h)
      obtain rfl : more = [] := by simpa using hrest
      rw [if_pos hend]
      rfl
    next hend =>
    rw [if_neg hend]
    split at h
    · next hslash =>
      split at h
      · have hescape := @IsBlind.asPiece (c :: more) left _ isBlind_unicodeEscape piece h left'
        obtain ⟨d, -, hd⟩ := asPiece_eq_ok hescape
        obtain ⟨letter, digits, htext, hletter⟩ := start_of_unicodeEscape hd
        obtain ⟨-, hmore⟩ := List.cons.inj htext
        have hsplit : more ++ left' = letter :: digits := hmore
        have hany : (more ++ left').head?.any isEscapeLetter = true := by rwa [hsplit]
        rw [if_pos hslash, if_pos hany]
        exact hescape
      · cases h
    next hslash =>
    rw [if_neg hslash]
    split at h
    · cases h
    next hallowed =>
    obtain ⟨rfl, hrest⟩ := Prod.mk.inj (Except.ok.inj h)
    obtain rfl : more = [] := by simpa using hrest
    rw [if_neg hallowed]
    rfl

theorem isBlind_iriRef : IsBlind iriRef := by
  intro taken left value h left'
  cases taken with
  | nil => exact absurd (length_iriRef h) (by simp)
  | cons c more =>
    by_cases hc : c = '<'
    · subst hc
      simp only [List.cons_append, iriRef] at h ⊢
      exact (gather_opens length_iriStep length_iriStep (fun _ => True) iriStep_suffix
        (fun hs => ⟨iriStep_opening (isBlind_iriStep _ hs left') _, trivial⟩)
        (fun _ hs => ⟨iriStep_opening (isBlind_iriStep _ hs _) _, trivial⟩) h).1
    · simp [iriRef, hc, fail] at h

/-! ### Strings -/

/-- The quotes of a string are one or three of a kind. -/
def IsDelimiter (delimiter : List Char) : Prop :=
  ∃ quote, (quote = '"' ∨ quote = '\'') ∧ (delimiter = [quote] ∨ delimiter = [quote, quote, quote])

theorem isDelimiter_delimiterOf {quote : Char} (h : quote = '"' ∨ quote = '\'')
    (text : List Char) : IsDelimiter (delimiterOf quote text) := by
  refine ⟨quote, h, ?_⟩
  unfold delimiterOf
  split
  · exact .inr rfl
  · exact .inl rfl

theorem quote_not_mem_spacers {quote : Char} (h : quote = '"' ∨ quote = '\'') :
    quote ∉ spacers := by
  obtain rfl | rfl := h <;> decide

theorem prefix_append_iff {start text : List Char} (h : start.length ≤ text.length)
    (rest : List Char) : start <+: text ++ rest ↔ start <+: text :=
  ⟨fun hp => List.prefix_of_prefix_length_le hp (List.prefix_append text rest) h,
    fun hp => hp.trans (List.prefix_append text rest)⟩

/-- Whether quotes close a string is seen from as many characters and one. -/
theorem closes_append {delimiter text : List Char} (h : delimiter.length < text.length)
    (rest : List Char) : closes delimiter (text ++ rest) = closes delimiter text := by
  have hprefix : delimiter.isPrefixOf (text ++ rest) = delimiter.isPrefixOf text := by
    rw [Bool.eq_iff_iff, List.isPrefixOf_iff_prefix, List.isPrefixOf_iff_prefix]
    exact prefix_append_iff (Nat.le_of_lt h) rest
  by_cases hlong : delimiter.length = 3
  · rw [closes, closes, hprefix, List.getElem?_append_left (by omega)]
  · have hshort : (delimiter.length == 3) = false := by simpa using hlong
    simp only [closes, hprefix, hshort, Bool.false_and]

/-- Quotes still close a string, for the character behind them has not become another quote. -/
theorem closes_opens {delimiter : List Char} (hd : IsDelimiter delimiter)
    (hopens : Opens left left') (h : closes delimiter (delimiter ++ left) = true) :
    closes delimiter (delimiter ++ left') = true := by
  obtain ⟨quote, hquote, rfl | rfl⟩ := hd
  · simp [closes]
  · have hne : left.head? ≠ some quote := by
      intro he
      cases left <;> simp_all [closes]
    have hne' : left'.head? ≠ some quote := by
      obtain he | ⟨c, hc, he⟩ := hopens.head
      · rwa [he]
      · rintro hq
        obtain rfl : c = quote := by simpa [he] using hq
        exact quote_not_mem_spacers hquote hc
    cases left' <;> simp_all [closes]

theorem stringStep_opening {opening delimiter text : List Char}
    {found : Option (List Char) × List Char} (h : stringStep opening delimiter text = .ok found)
    (opening' : List Char) : stringStep opening' delimiter text = .ok found := by
  cases text with
  | nil => cases h
  | cons c rest =>
    by_cases hline : (delimiter.length != 3 && endsLine c) = true
    · simp [stringStep, hline] at h
    · simpa only [stringStep, if_neg hline] using h

theorem stringStep_suffix {opening delimiter text rest : List Char} {piece : Option (List Char)}
    (h : stringStep opening delimiter text = .ok (piece, rest)) : rest <:+ text :=
  (@within_stringStep text text delimiter List.suffix_rfl).ok (stringStep_opening h text)

theorem stringStep_last {opening delimiter : List Char} (hd : IsDelimiter delimiter)
    (hopens : Opens left left')
    (h : stringStep opening delimiter (taken ++ left) = .ok (none, left)) :
    stringStep opening delimiter (taken ++ left') = .ok (none, left') ∧ taken = delimiter := by
  generalize htext : taken ++ left = text at h
  cases text with
  | nil => cases h
  | cons c rest =>
    simp only [stringStep] at h
    split at h
    · cases h
    next hline =>
    split at h
    · obtain ⟨_, he, -⟩ := asPiece_eq_ok h
      cases he
    next hslash =>
    split at h
    · next hcloses =>
      obtain ⟨-, hleft⟩ := Prod.mk.inj (Except.ok.inj h)
      have hprefix : delimiter <+: c :: rest :=
        List.isPrefixOf_iff_prefix.1 (Bool.and_eq_true_iff.1 hcloses).1
      obtain ⟨behind, hbehind⟩ := hprefix
      rw [← hbehind, List.drop_left] at hleft
      subst hleft
      obtain rfl : taken = delimiter := List.append_cancel_right (htext.trans hbehind.symm)
      rw [← hbehind] at hcloses
      have hcloses' := closes_opens hd hopens hcloses
      refine ⟨?_, rfl⟩
      obtain ⟨more, rfl⟩ : ∃ more, taken = c :: more := by
        obtain ⟨quote, -, rfl | rfl⟩ := hd
        · exact ⟨[], by rw [(List.cons.inj htext).1]⟩
        · exact ⟨[quote, quote], by rw [← (List.cons.inj htext).1]⟩
      rw [List.cons_append] at hcloses' ⊢
      simp only [stringStep, if_neg hline, if_neg hslash, hcloses', if_true]
      rw [← List.cons_append, List.drop_left]
    · cases h

theorem stringStep_more {opening delimiter more piece : List Char}
    (hlength : delimiter.length ≤ more.length)
    (h : stringStep opening delimiter (taken ++ (more ++ left)) = .ok (some piece, more ++ left)) :
    stringStep opening delimiter (taken ++ (more ++ left')) = .ok (some piece, more ++ left') := by
  cases taken with
  | nil => exact absurd (length_stringStep h) (by simp)
  | cons c first =>
    simp only [List.cons_append, stringStep] at h ⊢
    split at h
    · cases h
    next hline =>
    rw [if_neg hline]
    split at h
    · next hslash =>
      rw [if_pos hslash]
      exact @IsBlind.asPiece (c :: first) _ _ isBlind_stringEscape _ h (more ++ left')
    next hslash =>
    rw [if_neg hslash]
    split at h
    · cases h
    next hopen =>
    obtain ⟨hpiece, hrest⟩ := Prod.mk.inj (Except.ok.inj h)
    obtain rfl : first = [] := by simpa using hrest
    have hsame : closes delimiter (c :: (more ++ left')) =
        closes delimiter (c :: (more ++ left)) := by
      have hlong : delimiter.length < (c :: more).length := Nat.lt_succ_of_le hlength
      rw [← List.cons_append, ← List.cons_append, closes_append hlong, closes_append hlong]
    rw [List.nil_append] at hopen ⊢
    rw [hsame, if_neg hopen, hpiece]

theorem delimiterOf_opens {quote : Char} (hquote : quote = '"' ∨ quote = '\'')
    (hopens : Opens left left') {more : List Char} (hmore : 1 ≤ more.length)
    (h : delimiterOf quote (quote :: more ++ left) = [quote]) :
    delimiterOf quote (quote :: more ++ left') = [quote] := by
  have hshort : ¬[quote, quote, quote] <+: quote :: more ++ left := by
    intro hp
    rw [delimiterOf, if_pos (List.isPrefixOf_iff_prefix.2 hp)] at h
    cases h
  have hstill : ¬[quote, quote, quote] <+: quote :: more ++ left' := by
    intro hp
    apply hshort
    cases more with
    | nil => simp at hmore
    | cons d more =>
      cases more with
      | nil =>
        -- the string is empty, and the next character would be a third quote
        obtain he | ⟨c, hc, he⟩ := hopens.head
        · cases left' <;> cases left <;> simp_all
        · cases left' with
          | nil => cases he
          | cons e left' =>
            obtain rfl := Option.some.inj he
            have hthird : quote = e := by
              obtain ⟨behind, hbehind⟩ := hp
              simp only [List.cons_append, List.nil_append, List.cons.injEq] at hbehind
              exact hbehind.2.2.1
            exact absurd (hthird ▸ hc) (quote_not_mem_spacers hquote)
      | cons e more =>
        rw [prefix_append_iff (by simp)] at hp ⊢
        exact hp
  have hno : [quote, quote, quote].isPrefixOf (quote :: more ++ left') = false := by
    rw [Bool.eq_false_iff]
    exact fun hp => hstill (List.isPrefixOf_iff_prefix.1 hp)
  rw [delimiterOf, hno]
  rfl

/-- What is left of a string is behind its quotes, both the opening and the closing ones. -/
theorem quotation_opens {value : List Char × List Char} {quote : Char}
    (hquote : quote = '"' ∨ quote = '\'') (hopens : Opens left left')
    (h : quotation (quote :: taken ++ left) = .ok (value, left)) :
    quotation (quote :: taken ++ left') = .ok (value, left') := by
  have hd := isDelimiter_delimiterOf hquote (quote :: taken ++ left)
  generalize hdelimiter : delimiterOf quote (quote :: taken ++ left) = delimiter at hd
  have hprefix : delimiter <+: quote :: taken ++ left := by
    rw [← hdelimiter, delimiterOf]
    split
    · next hlong => exact List.isPrefixOf_iff_prefix.1 hlong
    · exact ⟨taken ++ left, rfl⟩
  obtain ⟨body, hbody⟩ := hprefix
  have hdrop : (quote :: taken ++ left).drop delimiter.length = body := by
    rw [← hbody, List.drop_left]
  rw [List.cons_append] at h hdelimiter hdrop
  simp only [quotation, hdelimiter, hdrop] at h
  split at h
  · cases h
  next text rest hgather =>
  obtain ⟨rfl, rfl⟩ := Prod.mk.inj (Except.ok.inj h)
  obtain ⟨more, rfl⟩ := gather_suffix length_stringStep stringStep_suffix hgather
  have hsplit : quote :: taken = delimiter ++ more :=
    List.append_cancel_right (by rw [← hbody, List.append_assoc])
  obtain ⟨hgather', hlength⟩ := @gather_opens more rest left' _
    (stringStep (quote :: (taken ++ left')) delimiter) length_stringStep length_stringStep
    (fun more => delimiter.length ≤ more.length) stringStep_suffix
    (fun hs => by
      obtain ⟨hlast, rfl⟩ := stringStep_last hd hopens hs
      exact ⟨stringStep_opening hlast _, Nat.le_refl _⟩)
    (fun hmore hs => ⟨stringStep_opening (stringStep_more hmore hs) _, by
      rw [List.length_append]
      omega⟩) text hgather
  have hdrop' : (quote :: (taken ++ left')).drop delimiter.length = more ++ left' := by
    rw [← List.cons_append, hsplit, List.append_assoc, List.drop_left]
  have hdelimiter' : delimiterOf quote (quote :: (taken ++ left')) = delimiter := by
    obtain ⟨other, -, rfl | rfl⟩ := hd
    · obtain ⟨rfl, rfl⟩ := List.cons.inj hsplit
      exact delimiterOf_opens hquote hopens hlength hdelimiter
    · obtain ⟨rfl, rfl⟩ := List.cons.inj hsplit
      simp [delimiterOf]
  rw [List.cons_append]
  simp only [quotation, hdelimiter', hdrop', hgather']

/-! ### Names -/

/-- A character that is no spacer tells an accepted character from those that begin a gap. -/
theorem not_of_mem_spacers {kind : Char → Bool} (h : spacers.all (fun c => !kind c) = true)
    {c : Char} (hc : c ∈ spacers) : kind c = false := by
  simpa using List.all_eq_true.1 h c hc

/-- What is not accepted begins a name only as a dot in front of one. -/
theorem dotted_eq_nil_iff {accept : Char → Bool} (c : Char) (rest : List Char) :
    (dotted accept (c :: rest)).1 = [] ↔
      accept c = false ∧ (c = '.' → (dotted accept rest).1 = []) := by
  cases hc : accept c
  · by_cases hdot : c = '.'
    · subst hdot
      cases hname : (dotted accept rest).1 <;> simp [dotted, hc, hname]
    · simp [dotted, hc, hdot]
  · simp [dotted, hc]

theorem dotted_nil_opens {accept : Char → Bool}
    (haccept : spacers.all (fun c => !(accept c || c == '.')) = true) (hopens : Opens left left')
    (h : (dotted accept left).1 = []) : (dotted accept left').1 = [] := by
  induction hopens with
  | here hc behind => simp [dotted, not_of_mem_spacers haccept hc]
  | cons c hrest ih =>
    rw [dotted_eq_nil_iff] at h ⊢
    exact ⟨h.1, fun hdot => ih (h.2 hdot)⟩

/-- A dotted name ends in front of dots that lead to nothing. -/
theorem dotted_opens {accept : Char → Bool}
    (haccept : spacers.all (fun c => !(accept c || c == '.')) = true) (hopens : Opens left left')
    (h : dotted accept (taken ++ left) = (taken, left)) :
    dotted accept (taken ++ left') = (taken, left') := by
  induction taken with
  | nil =>
    have hnone := dotted_nil_opens haccept hopens (congrArg Prod.fst h)
    have hall := dotted_append accept left'
    rw [hnone, List.nil_append] at hall
    exact Prod.ext hnone hall
  | cons c taken ih =>
    simp only [List.cons_append, dotted] at h ⊢
    split at h
    · next hc =>
      rw [if_pos hc]
      split at h
      · next hname =>
        obtain ⟨hfirst, hrest⟩ := Prod.mk.inj h
        have hown : dotted accept (taken ++ left) = (taken, left) :=
          Prod.ext (List.cons.inj hfirst).2 hrest
        rw [ih hown]
        rw [hown] at hname
        rw [if_pos hname]
      · cases (Prod.mk.inj h).1
    · cases (Prod.mk.inj h).1

theorem isNameChar_spacers : spacers.all (fun c => !(isNameChar c || c == '.')) = true := by decide

theorem blankLabel_opens {label : List Char} (hopens : Opens left left')
    (h : blankLabel (taken ++ left) = .ok (label, left)) :
    blankLabel (taken ++ left') = .ok (label, left') := by
  cases taken with
  | nil =>
    have hlength := length_blankLabel h
    cases left with
    | nil => cases h
    | cons c rest =>
      simp only [List.nil_append, blankLabel, fail] at h
      split at h
      · have hd := congrArg List.length (dotted_append isNameChar rest)
        obtain ⟨-, hrest⟩ := Prod.mk.inj (Except.ok.inj h)
        rw [List.length_append, hrest, List.length_cons] at hd
        omega
      · cases h
  | cons c taken =>
    simp only [List.cons_append, blankLabel] at h ⊢
    split at h
    · next hc =>
      obtain ⟨rfl, hrest⟩ := Prod.mk.inj (Except.ok.inj h)
      have hall := dotted_append isNameChar (taken ++ left)
      rw [hrest] at hall
      have hname : dotted isNameChar (taken ++ left) = (taken, left) :=
        Prod.ext (List.append_cancel_right hall) hrest
      rw [if_pos hc, dotted_opens isNameChar_spacers hopens hname, hname]
    · cases h

/-- A row of dots leads to nothing still. -/
theorem dotsLeadOn_opens (hopens : Opens left left') (h : dotsLeadOn left = false) :
    dotsLeadOn left' = false := by
  have hspacers : spacers.all (fun c => !(isLocalChar c || c == '.')) = true := by decide
  induction hopens with
  | @here rest c hc behind =>
    have hnot : isLocalChar c = false ∧ c ≠ '.' := by
      simpa using not_of_mem_spacers hspacers hc
    simp [dotsLeadOn, hnot]
  | @cons c rest rest' hrest ih =>
    by_cases hdot : c = '.'
    · subst hdot
      rw [Turtle.dotsLeadOn_dot] at h ⊢
      exact ih h
    · simpa [dotsLeadOn, hdot] using h

/-- Dots that lead on to something in front of dots that do not lead on see no more of them. -/
theorem dotsLeadOn_append {more : List Char} (h : dotsLeadOn (more ++ left) = true)
    (hleft : dotsLeadOn left = false) (left' : List Char) : dotsLeadOn (more ++ left') = true := by
  induction more with
  | nil => simp [hleft] at h
  | cons c more ih =>
    by_cases hdot : c = '.'
    · subst hdot
      rw [List.cons_append, Turtle.dotsLeadOn_dot] at h ⊢
      exact ih h
    · simpa [dotsLeadOn, hdot] using h

theorem dotsLeadOn_of_localStep {text rest : List Char} (h : localStep text = .ok (none, rest)) :
    rest = text ∧ dotsLeadOn text = false := by
  cases text with
  | nil =>
    obtain ⟨-, rfl⟩ := Prod.mk.inj (Except.ok.inj h)
    exact ⟨rfl, rfl⟩
  | cons c text =>
    simp only [localStep] at h
    split at h
    · split at h <;> cases h
    next hpercent =>
    split at h
    · split at h <;> cases h
    next hslash =>
    split at h
    · cases h
    next hname =>
    split at h
    · cases h
    next hdot =>
    obtain ⟨-, rfl⟩ := Prod.mk.inj (Except.ok.inj h)
    refine ⟨rfl, ?_⟩
    by_cases hc : c = '.'
    · simpa [hc] using hdot
    · have hlocal : isLocalChar c = false := by
        simp only [not_or] at hname
        simp [isLocalChar, hname, hpercent, hslash]
      simp [dotsLeadOn, hc, hlocal]

theorem localStep_last (hopens : Opens left left')
    (h : localStep (taken ++ left) = .ok (none, left)) :
    localStep (taken ++ left') = .ok (none, left') ∧ dotsLeadOn left = false := by
  obtain ⟨htaken, hdots⟩ := dotsLeadOn_of_localStep h
  obtain rfl : taken = [] := by simpa using htaken
  rw [List.nil_append] at h hdots ⊢
  refine ⟨?_, hdots⟩
  have hspacers : spacers.all (fun c => !(isLocalChar c || c == '.')) = true := by decide
  have hspacer : ∀ c ∈ spacers, ∀ behind, localStep (c :: behind) = .ok (none, c :: behind) := by
    intro c hc behind
    have hnot : isLocalChar c = false ∧ c ≠ '.' := by
      simpa using not_of_mem_spacers hspacers hc
    simp only [isLocalChar, Bool.or_eq_false_iff, beq_eq_false_iff_ne] at hnot
    simp [localStep, hnot]
  cases hopens with
  | here hc behind => exact hspacer _ hc behind
  | @cons c rest rest' hrest =>
    have hdots' := dotsLeadOn_opens (.cons c hrest) hdots
    simp only [localStep] at h ⊢
    split at h
    · split at h <;> cases h
    next hpercent =>
    split at h
    · split at h <;> cases h
    next hslash =>
    split at h
    · cases h
    next hname =>
    rw [if_neg hpercent, if_neg hslash, if_neg hname, if_neg (by simp [hdots'])]

theorem localStep_more {more piece : List Char} (hleft : dotsLeadOn left = false)
    (h : localStep (taken ++ (more ++ left)) = .ok (some piece, more ++ left)) :
    localStep (taken ++ (more ++ left')) = .ok (some piece, more ++ left') := by
  cases taken with
  | nil => exact absurd (length_localStep h) (by simp)
  | cons c first =>
    simp only [List.cons_append, localStep] at h ⊢
    split at h
    · next hpercent =>
      rw [if_pos hpercent]
      split at h
      · cases h
      · next hescape =>
        obtain ⟨hpiece, rfl⟩ := Prod.mk.inj (Except.ok.inj h)
        obtain rfl := Option.some.inj hpiece
        have hblind := @isBlind_percentEscape (c :: first) _ _ hescape (more ++ left')
        rw [List.cons_append] at hblind
        rw [hblind]
    next hpercent =>
    rw [if_neg hpercent]
    split at h
    · next hslash =>
      rw [if_pos hslash]
      split at h
      · cases h
      · next hescape =>
        obtain ⟨hpiece, rfl⟩ := Prod.mk.inj (Except.ok.inj h)
        obtain rfl := Option.some.inj hpiece
        have hblind := @isBlind_localEscape (c :: first) _ _ hescape (more ++ left')
        rw [List.cons_append] at hblind
        rw [hblind]
    next hslash =>
    rw [if_neg hslash]
    split at h
    · next hname =>
      obtain ⟨hpiece, hrest⟩ := Prod.mk.inj (Except.ok.inj h)
      obtain rfl : first = [] := by simpa using hrest
      rw [if_pos hname, hpiece]
      rfl
    next hname =>
    rw [if_neg hname]
    split at h
    · next hdot =>
      obtain ⟨hpiece, hrest⟩ := Prod.mk.inj (Except.ok.inj h)
      obtain rfl : first = [] := by simpa using hrest
      have hleads := @dotsLeadOn_append left (c :: more) hdot.2 hleft left'
      rw [List.nil_append, if_pos ⟨hdot.1, hleads⟩, hpiece]
    · cases h

theorem localPart_opens {value : List Char} (hopens : Opens left left')
    (hstart : taken ≠ []) (h : localPart (taken ++ left) = .ok (value, left)) :
    localPart (taken ++ left') = .ok (value, left') := by
  have hsuffix : ∀ {text rest piece}, localStep text = .ok (piece, rest) → rest <:+ text :=
    fun hs => (within_localStep _).ok hs
  unfold localPart at h ⊢
  split at h
  · next hlocal =>
    have hstill : startsLocal (taken ++ left') = true := by
      cases taken with
      | nil => exact absurd rfl hstart
      | cons c taken => exact hlocal
    rw [if_pos hstill]
    exact (gather_opens length_localStep length_localStep (fun _ => dotsLeadOn left = false)
      hsuffix (fun hs => localStep_last hopens hs)
      (fun hdots hs => ⟨localStep_more hdots hs, hdots⟩) h).1
  · cases h

end Scan

end Rdf

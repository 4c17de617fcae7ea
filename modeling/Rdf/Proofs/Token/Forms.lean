import Rdf.Graph.Basic
import Rdf.Proofs.Token.Labels
import Rdf.Token.Lexeme

/-!
What the scanner gives can be written.

The labels and the tags of lexemes have the form that the printers ask for, and so have the labels
that are minted.
-/

namespace Rdf

open Text Scan

/-- The label or the tag of the lexeme has the form of one. -/
def Lexeme.Legible : Lexeme → Prop
  | .blank label => isBlankLabel label.toList = true
  | .name label _ => isSpaceLabel label.toList = true
  | .languageTag tag => isLanguageTag tag.toList = true
  | _ => True

/-! ### Labels -/

/-- A dotted name does not end with a dot. -/
theorem isLabelTail_dotted (text : List Char) : isLabelTail (dotted isNameChar text).1 = true := by
  have hdot : isNameChar '.' = false := by decide
  induction text with
  | nil => rfl
  | cons c rest ih =>
    simp only [dotted]
    split
    · next hc =>
      cases hname : (dotted isNameChar rest).1 with
      | nil =>
        by_cases haccept : isNameChar c = true
        · have hne : c ≠ '.' := by
            rintro rfl
            simp [hdot] at haccept
          simp [haccept, isLabelTail, hne]
        · simp [haccept, isLabelTail]
      | cons d name =>
        rw [hname] at ih
        have hall : (c == '.' || isNameChar c) = true := by rwa [Bool.or_comm]
        obtain ⟨htail, hlast⟩ := Bool.and_eq_true_iff.1 ih
        simp only [List.isEmpty_cons, Bool.not_false, Bool.or_true, if_true, isLabelTail,
          Bool.and_eq_true]
        exact ⟨by simpa [hall] using htail, by simpa using hlast⟩
    · rfl

theorem isBlankLabel_of_scan {text label left : List Char}
    (h : blankLabel text = .ok (label, left)) : isBlankLabel label = true := by
  cases text with
  | nil => simp [blankLabel, fail] at h
  | cons c rest =>
    simp only [blankLabel] at h
    split at h
    · next hc =>
      obtain ⟨rfl, -⟩ := Prod.mk.inj (Except.ok.inj h)
      exact Bool.and_eq_true_iff.2 ⟨hc, isLabelTail_dotted rest⟩
    · simp [fail] at h

theorem isSpaceLabel_scanLabel (text : List Char) :
    isSpaceLabel (Lexeme.scanLabel text).1 = true := by
  unfold Lexeme.scanLabel
  cases text with
  | nil => rfl
  | cons c rest =>
    by_cases hc : isNameBase c = true
    · have haccept : isNameChar c = true := by simp [isNameChar, isNameStart, hc]
      simp [hc, dotted, haccept, isSpaceLabel, isLabelTail_dotted]
    · simp [hc, isSpaceLabel]

/-! ### Language tags -/

namespace Pattern

/-- The later parts of a tag have no more behind them. -/
theorem tagTail_fst (text : List Char) : tagTail (tagTail text).1 = ((tagTail text).1, []) := by
  induction text with
  | nil => rfl
  | cons c rest ih =>
    simp only [tagTail]
    split
    · next hc =>
      have hnext : (isTagChar c || (c == '-' && (tagTail rest).1.head?.any isTagChar)) = true := by
        by_cases htag : isTagChar c = true
        · simp [htag]
        · have hmark : c = '-' ∧ rest.head?.any isTagChar = true := by simpa [htag] using hc
          cases rest with
          | nil => simp at hmark
          | cons d rest =>
            have hd : isTagChar d = true := by simpa using hmark.2
            simp [hmark.1, tagTail, hd]
      simp only [tagTail, hnext, if_true, ih]
    · rfl

/-- Characters of a kind are taken as long as they go on. -/
theorem atLeastOne_append {kind : Char → Bool} {taken rest : List Char} (hne : taken ≠ [])
    (hall : ∀ c ∈ taken, kind c = true) (hrest : rest.head?.all (fun c => !kind c) = true) :
    atLeastOne kind (taken ++ rest) = some (taken, rest) := by
  have hstop : rest.takeWhile kind = [] ∧ rest.dropWhile kind = rest := by
    cases rest with
    | nil => exact ⟨rfl, rfl⟩
    | cons c rest =>
      have hc : kind c = false := by simpa using hrest
      simp [hc]
  cases taken with
  | nil => exact (hne rfl).elim
  | cons c taken =>
    obtain ⟨hc, htaken⟩ := List.forall_mem_cons.1 hall
    simp [atLeastOne, seq, one, many, hc, List.takeWhile_append_of_pos htaken,
      List.dropWhile_append_of_pos htaken, hstop]

/-- The later parts of a tag begin with the hyphen that stands before them. -/
theorem head?_tagTail {text : List Char} (h : text.head? = some '-') :
    (tagTail text).1 = [] ∨ (tagTail text).1.head? = some '-' := by
  cases text with
  | nil => exact .inl rfl
  | cons c rest =>
    obtain rfl : c = '-' := by simpa using h
    simp only [tagTail]
    split
    · exact .inr rfl
    · exact .inl rfl

theorem isLanguageTag_of_scan {text tag left : List Char}
    (h : languageTag text = some (tag, left)) : isLanguageTag tag = true := by
  obtain ⟨letters, middle, tail, hletters, htail, rfl⟩ := seq_eq_some h
  have hall : ∀ c ∈ letters, isLetter c = true := takes_atLeastOne (fun _ hc => hc) hletters
  have hne : letters ≠ [] := proper_atLeastOne _ hletters
  -- what stands behind the letters is taken again as it was
  have hagain : tail = [] ∨ tail.head? = some '-' ∧ tagTail tail = (tail, []) := by
    simp only [Option.some.injEq] at htail
    split at htail
    · next hmark =>
      obtain rfl : (tagTail middle).1 = tail := congrArg Prod.fst htail
      exact (head?_tagTail hmark).imp id fun hhead => ⟨hhead, tagTail_fst middle⟩
    · exact .inl (Prod.mk.inj htail).1.symm
  refine (fits_iff exact_languageTag).2 ?_
  obtain rfl | ⟨hhead, htag⟩ := hagain
  · have hletters := @atLeastOne_append isLetter letters [] hne hall rfl
    rw [List.append_nil] at hletters ⊢
    simp [languageTag, seq, hletters]
  · have hmark : tail.head?.all (fun c => !isLetter c) = true := by rw [hhead]; rfl
    simp [languageTag, seq, atLeastOne_append hne hall hmark, hhead, htag]

end Pattern

/-! ### Lexemes -/

namespace Lexeme

variable {afterString : Bool} {text left : List Char} {l : Lexeme}

theorem legible_of_scanAtWord (h : scanAtWord afterString text = .ok (l, left)) : l.Legible := by
  simp only [scanAtWord] at h
  split at h
  · simp [fail] at h
  · next hword =>
    repeat' split at h
    all_goals simp only [fail, reduceCtorEq, Except.ok.injEq, Prod.mk.injEq] at h
    all_goals obtain ⟨rfl, -⟩ := h
    · simpa [Legible] using Pattern.isLanguageTag_of_scan hword
    · trivial
    · trivial

theorem legible_of_scanNumber (h : scanNumber text = .ok (l, left)) : l.Legible := by
  simp only [scanNumber] at h
  split at h
  · next hfound =>
    obtain rfl := Except.ok.inj h
    obtain ⟨kind, -, hkind⟩ := List.exists_of_findSome?_eq_some hfound
    simp only [scanNumberAs] at hkind
    repeat' split at hkind
    all_goals simp only [reduceCtorEq, Option.some.injEq, Prod.mk.injEq] at hkind
    obtain ⟨rfl, -⟩ := hkind
    trivial
  · simp [fail] at h

theorem legible_of_scanName (h : scanName text = .ok (l, left)) : l.Legible := by
  have hlabel := isSpaceLabel_scanLabel text
  simp only [scanName] at h
  repeat' split at h
  all_goals simp only [reduceCtorEq, Except.ok.injEq, Prod.mk.injEq] at h
  all_goals obtain ⟨rfl, -⟩ := h
  · simpa [Legible] using hlabel
  · simpa [Legible] using hlabel
  · next hkeyword =>
    simp only [keyword?] at hkeyword
    repeat' split at hkeyword
    all_goals simp only [reduceCtorEq, Option.some.injEq] at hkeyword
    all_goals exact hkeyword ▸ trivial

theorem legible_of_scan (h : scan afterString text = .ok (l, left)) : l.Legible := by
  cases text with
  | nil =>
    obtain ⟨rfl, -⟩ := Prod.mk.inj (Except.ok.inj h)
    trivial
  | cons c text =>
    simp only [scan] at h
    split at h
    · split at h
      · simp at h
      · obtain ⟨rfl, -⟩ := Prod.mk.inj (Except.ok.inj h)
        trivial
    split at h
    · split at h
      · simp at h
      · obtain ⟨rfl, -⟩ := Prod.mk.inj (Except.ok.inj h)
        trivial
    split at h
    · exact legible_of_scanAtWord h
    split at h
    · split at h
      · obtain ⟨rfl, -⟩ := Prod.mk.inj (Except.ok.inj h)
        trivial
      · simp [fail] at h
    split at h
    · split at h
      · simp at h
      · next hlabel =>
        obtain ⟨rfl, -⟩ := Prod.mk.inj (Except.ok.inj h)
        simpa [Legible] using isBlankLabel_of_scan hlabel
    split at h
    · exact legible_of_scanNumber h
    split at h
    · obtain ⟨rfl, -⟩ := Prod.mk.inj (Except.ok.inj h)
      trivial
    split at h
    · exact legible_of_scanName h
    · simp [fail] at h

end Lexeme

/-! ### Minted labels -/

theorem isLabelTail_of_nameChars {text : List Char} (h : ∀ c ∈ text, isNameChar c = true) :
    isLabelTail text = true := by
  have hdot : isNameChar '.' = false := by decide
  have hlast : text.getLast? ≠ some '.' := by
    intro hlast
    simp [h _ (List.mem_of_getLast? hlast)] at hdot
  simp only [isLabelTail, Bool.and_eq_true, List.all_eq_true]
  exact ⟨fun c hc => by simp [h c hc], by simpa using hlast⟩

theorem Graph.isBlankLabel_mintedLabel (number : Nat) :
    isBlankLabel (mintedLabel number).toList = true := by
  have hdigit : ∀ c ∈ (toString number).toList, isNameChar c = true := by
    intro c hc
    have htoDigits : c ∈ Nat.toDigits 10 number := by
      simpa only [Nat.toString_eq_repr, Nat.toList_repr] using hc
    have hisDigit := Nat.isDigit_of_mem_toDigits (by decide) (by decide) htoDigits
    have hours : isDigit c = true := by
      simpa [Char.isDigit, isDigit, Char.le_def] using hisDigit
    simp [isNameChar, hours]
  have htext : (mintedLabel number).toList =
      'a' :: (['u', 't', 'o'] ++ (toString number).toList) := by
    simp [mintedLabel]
  have hauto : ['u', 't', 'o'].all isNameChar = true := by decide
  have htail := isLabelTail_of_nameChars
    (List.forall_mem_append.2 ⟨List.all_eq_true.1 hauto, hdigit⟩)
  have hfirst : isNameStart 'a' = true := by decide
  rw [htext, isBlankLabel, hfirst, htail]
  rfl

end Rdf

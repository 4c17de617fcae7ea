import Rdf.Document.Spelling
import Rdf.Proofs.Text.Hex
import Rdf.Token.Quotation

/-!
Escapes are read back: identifiers in angle brackets and strings in double quotes hold the text
that was written, whatever its characters are.
-/

namespace Rdf.Scan

open Text Spelling

/-! ### The loop -/

section

variable {step : List Char → Scan (Option (List Char))}
  (progress : ∀ {text piece rest}, step text = .ok (some piece, rest) → rest.length < text.length)
include progress

theorem gather_none {text rest : List Char} (h : step text = .ok (none, rest)) :
    gather step progress text = .ok ([], rest) := by
  rw [gather]
  split <;> simp_all

theorem gather_some {text piece pieces rest left : List Char}
    (h : step text = .ok (some piece, rest)) (hg : gather step progress rest = .ok (pieces, left)) :
    gather step progress text = .ok (piece ++ pieces, left) := by
  rw [gather]
  split
  · simp_all
  · simp_all
  · next hs =>
    obtain ⟨rfl, rfl⟩ : _ ∧ _ := by simpa [h] using hs.symm
    rw [hg]

/-- A loop whose step reads each written character reads the whole text. -/
theorem gather_flatMap {write : Char → List Char} {last left : List Char}
    (hstep : ∀ c rest, step (write c ++ rest) = .ok (some [c], rest))
    (hlast : step last = .ok (none, left)) (value : List Char) :
    gather step progress (value.flatMap write ++ last) = .ok (value, left) := by
  induction value with
  | nil => exact gather_none progress hlast
  | cons c value ih =>
    rw [List.flatMap_cons, List.append_assoc]
    exact gather_some progress (hstep c _) ih

end

/-! ### Code points -/

theorem hexNumber_eq_ok_iff {count n : Nat} {what : String} {text rest : List Char} :
    hexNumber count what text = .ok (n, rest) ↔
      ∃ digits, IsHexNumeral count n digits ∧ text = digits ++ rest := by
  simp only [hexNumber]
  constructor
  · intro h
    split at h
    · next hdigits =>
      obtain ⟨rfl, rfl⟩ : _ ∧ _ := by simpa using h
      exact ⟨text.take count, isHexNumeral_iff.2 ⟨hdigits.1, hdigits.2, rfl⟩,
        (List.take_append_drop count text).symm⟩
    · simp [fail] at h
  · rintro ⟨digits, hnumeral, rfl⟩
    obtain ⟨rfl, hall, rfl⟩ := isHexNumeral_iff.1 hnumeral
    simp [hall]

/-- No character is half of a surrogate pair. -/
theorem isSurrogate_toNat (c : Char) :
    isHighSurrogate c.toNat = false ∧ isLowSurrogate c.toNat = false := by
  have hv := c.valid
  simp only [UInt32.isValidChar, Nat.isValidChar] at hv
  simp only [isHighSurrogate, isLowSurrogate, Char.toNat, Bool.and_eq_false_iff,
    decide_eq_false_iff_not]
  omega

theorem unicodeEscape_shortEscape {c : Char} (h : c.toNat < 0x10000) (rest : List Char) :
    unicodeEscape (shortEscape c ++ rest) = .ok (c, rest) := by
  obtain ⟨hhigh, hlow⟩ := isSurrogate_toNat c
  have hn : hexNumber 4 "\\u" (hexDigits .upper 4 c.toNat ++ rest) = .ok (c.toNat, rest) :=
    hexNumber_eq_ok_iff.2 ⟨_, isHexNumeral_hexDigits .upper h, rfl⟩
  simp only [shortEscape, List.cons_append, unicodeEscape, hn, hlow, hhigh, Char.ofNat_toNat]
  rfl

/-! ### Identifiers -/

theorem iriStep_iriChar (opening : List Char) (c : Char) (rest : List Char) :
    iriStep opening (iriChar c ++ rest) = .ok (some [c], rest) := by
  by_cases hc : isIriEscaped c = true
  · have hsmall : c.toNat < 0x10000 := by
      simp only [isIriEscaped, Bool.or_eq_true, decide_eq_true_eq] at hc
      cases hc with
      | inl hc =>
        have hall : ['<', '>', '"', '\x7b', '\x7d', '|', '^', '\x60', '\\'].all
            (fun d => decide (d.toNat < 0x10000)) = true := by decide
        exact of_decide_eq_true (List.all_eq_true.1 hall c (List.contains_iff_mem.1 hc))
      | inr hc => omega
    have hu := unicodeEscape_shortEscape hsmall rest
    rw [shortEscape] at hu
    have hb : ('\\' :: 'u' :: hexDigits .upper 4 c.toNat ++ rest) =
        '\\' :: ('u' :: (hexDigits .upper 4 c.toNat ++ rest)) := rfl
    rw [hb] at hu
    simp only [iriChar, hc, if_true, shortEscape, hb, iriStep, hu]
    rfl
  · simp only [isIriEscaped, Bool.or_eq_true, decide_eq_true_eq, not_or] at hc
    obtain ⟨hmark, hctl⟩ := hc
    have hmark : c ∉ ['<', '>', '"', '\x7b', '\x7d', '|', '^', '\x60', '\\'] := by
      rwa [List.contains_iff_mem] at hmark
    simp only [List.mem_cons, List.not_mem_nil, or_false, not_or] at hmark
    have hline : endsLine c = false := by
      rw [endsLine, Bool.or_eq_false_iff]
      constructor <;> (rw [beq_eq_false_iff_ne]; rintro rfl; exact hctl (by decide))
    have hforbid : iriForbids c = false := by
      simp [iriForbids, hmark, hctl]
    simp [iriChar, isIriEscaped, iriStep, hmark, hctl, hline, hforbid]

theorem iriRef_written (value : String) (rest : List Char) :
    iriRef (Spelling.iriRef value ++ rest) = .ok (value.toList, rest) := by
  simp only [Spelling.iriRef, List.cons_append, List.append_assoc, List.nil_append]
  exact gather_flatMap length_iriStep (iriStep_iriChar _) (by simp [iriStep, endsLine]) value.toList

/-! ### Strings -/

theorem stringStep_stringChar (opening : List Char) (c : Char) (rest : List Char) :
    stringStep opening ['"'] (stringChar c ++ rest) = .ok (some [c], rest) := by
  have hletter : ∀ letter, escapedChar? letter = some c → letter ≠ 'u' → letter ≠ 'U' →
      stringStep opening ['"'] ('\\' :: letter :: rest) = .ok (some [c], rest) := by
    intro letter he h1 h2
    simp [stringStep, endsLine, stringEscape, h1, h2, he, asPiece]
  unfold stringChar
  split
  · next h => exact hletter _ (by rw [h]; rfl) (by decide) (by decide)
  split
  · next h => exact hletter _ (by rw [h]; rfl) (by decide) (by decide)
  split
  · next h => exact hletter _ (by rw [h]; rfl) (by decide) (by decide)
  split
  · next h => exact hletter _ (by rw [h]; rfl) (by decide) (by decide)
  split
  · next h => exact hletter _ (by rw [h]; rfl) (by decide) (by decide)
  split
  · next h => exact hletter _ (by rw [h]; rfl) (by decide) (by decide)
  split
  · next h => exact hletter _ (by rw [h]; rfl) (by decide) (by decide)
  split
  · next hhidden =>
    have hsmall : c.toNat < 0x10000 := by
      simp only [isHidden, Bool.or_eq_true, decide_eq_true_eq, beq_iff_eq] at hhidden
      omega
    have hu := unicodeEscape_shortEscape hsmall rest
    have hb : shortEscape c ++ rest = '\\' :: ('u' :: (hexDigits .upper 4 c.toNat ++ rest)) := rfl
    rw [hb] at hu ⊢
    simp [stringStep, endsLine, stringEscape, hu, asPiece]
  · next hslash hquote _ _ hlf hcr _ _ =>
    simp [stringStep, endsLine, closes, hslash, hlf, hcr, Ne.symm hquote]

/-- The text between double quotes never begins with a double quote. -/
theorem head?_stringBody_ne (value rest : List Char) (h : rest.head? ≠ some '"') :
    (stringBody value ++ '"' :: rest)[0]? ≠ some '"' ∨
      (stringBody value ++ '"' :: rest)[1]? ≠ some '"' := by
  cases value with
  | nil =>
    refine .inr ?_
    simpa [stringBody, List.head?_eq_getElem?] using h
  | cons c value =>
    refine .inl ?_
    simp only [stringBody, List.flatMap_cons, stringChar]
    repeat' split
    all_goals simp_all [shortEscape]

theorem quotation_written (value : String) {rest : List Char} (h : rest.head? ≠ some '"') :
    quotation (Spelling.string value ++ rest) = .ok ((['"'], value.toList), rest) := by
  have hdelim : delimiterOf '"' ('"' :: (stringBody value.toList ++ '"' :: rest)) = ['"'] := by
    have hhead := head?_stringBody_ne value.toList rest h
    apply if_neg
    intro hthree
    obtain ⟨tail, htail⟩ := List.isPrefixOf_iff_prefix.1 hthree
    have htail : stringBody value.toList ++ '"' :: rest = '"' :: '"' :: tail := by
      simpa using htail.symm
    simp [htail] at hhead
  have hend : stringStep ('"' :: (stringBody value.toList ++ '"' :: rest)) ['"'] ('"' :: rest) =
      .ok (none, rest) := by
    simp [stringStep, endsLine, closes]
  have hg : gather (stringStep ('"' :: (stringBody value.toList ++ '"' :: rest)) ['"'])
      length_stringStep (stringBody value.toList ++ '"' :: rest) = .ok (value.toList, rest) :=
    gather_flatMap length_stringStep (stringStep_stringChar _) hend value.toList
  simp only [Spelling.string, List.cons_append, List.append_assoc, List.nil_append, quotation,
    hdelim, List.length_singleton, List.drop_one, List.tail_cons]
  rw [hg]

end Rdf.Scan

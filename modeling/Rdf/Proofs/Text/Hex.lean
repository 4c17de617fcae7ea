import Mathlib.Algebra.Group.Nat.Defs
import Mathlib.Data.List.Induction
import Rdf.Text.Class
import Rdf.Text.Hex

/-!
Numerals in hexadecimal digits.

A text is a numeral of a number if and only if it is made of hexadecimal digits, which may be of
either case, and has that number as its value.
-/

namespace Rdf.Text

variable {width n : Nat} {digits : List Char} {c : Char}

theorem isHex_hexDigit (letters : LetterCase) {digit : Nat} (h : digit < 16) :
    isHex (hexDigit letters digit) = true := by
  revert digit
  cases letters <;> decide

theorem all_isHex_hexDigits (letters : LetterCase) (width n : Nat) :
    (hexDigits letters width n).all isHex = true := by
  induction width generalizing n with
  | zero => rfl
  | succ width ih =>
    have hd := isHex_hexDigit letters (Nat.mod_lt n (by decide : 0 < 16))
    rw [hexDigits, List.all_append, ih]
    simp [hd]

/-- A hexadecimal digit is what its value is written as in one of the two cases. -/
theorem eq_hexDigit_of_isHex (h : isHex c = true) :
    hexDigitValue c < 16 ∧ ∃ letters, c = hexDigit letters (hexDigitValue c) := by
  have hc : (48 ≤ c.toNat ∧ c.toNat ≤ 57) ∨ (97 ≤ c.toNat ∧ c.toNat ≤ 102) ∨
      (65 ≤ c.toNat ∧ c.toNat ≤ 70) := by
    simpa [isHex, isDigit, Char.le_def, UInt32.le_iff_toNat_le, or_assoc] using h
  have hvalue : hexDigitValue c = if c.toNat ≤ 57 then c.toNat - 48
      else if c.toNat ≤ 70 then c.toNat - 65 + 10 else c.toNat - 97 + 10 := by
    simp [hexDigitValue, Char.le_def, UInt32.le_iff_toNat_le]
  have hmarks : '0'.toNat = 48 ∧ 'a'.toNat = 97 ∧ 'A'.toNat = 65 := by decide
  obtain ⟨hzero, hlower, hupper⟩ := hmarks
  obtain hc | hc | hc := hc
  · rw [if_pos hc.2] at hvalue
    have hchar : '0'.toNat + hexDigitValue c = c.toNat := by omega
    refine ⟨by omega, .upper, ?_⟩
    rw [hexDigit, if_pos (by omega), hchar, Char.ofNat_toNat]
  · rw [if_neg (by omega), if_neg (by omega)] at hvalue
    have hchar : 'a'.toNat + (hexDigitValue c - 10) = c.toNat := by omega
    refine ⟨by omega, .lower, ?_⟩
    rw [hexDigit, if_neg (by omega), hchar, Char.ofNat_toNat]
  · rw [if_neg (by omega), if_pos hc.2] at hvalue
    have hchar : 'A'.toNat + (hexDigitValue c - 10) = c.toNat := by omega
    refine ⟨by omega, .upper, ?_⟩
    rw [hexDigit, if_neg (by omega), hchar, Char.ofNat_toNat]

/-- The numerals of a number in so many hexadecimal digits, each letter in either case. -/
inductive IsHexNumeral : Nat → Nat → List Char → Prop
  | nil : IsHexNumeral 0 0 []
  | concat {width n digit : Nat} {digits : List Char} (letters : LetterCase) :
      IsHexNumeral width n digits → digit < 16 →
        IsHexNumeral (width + 1) (n * 16 + digit) (digits ++ [hexDigit letters digit])

theorem isHexNumeral_iff : IsHexNumeral width n digits ↔
    digits.length = width ∧ digits.all isHex = true ∧ hexValue digits = n := by
  constructor
  · intro h
    induction h with
    | nil => exact ⟨rfl, rfl, rfl⟩
    | concat letters _ hdigit ih =>
      obtain ⟨hlength, hall, hvalue⟩ := ih
      refine ⟨by simp [hlength], ?_, ?_⟩
      · rw [List.all_append, hall]
        simp [isHex_hexDigit letters hdigit]
      · rw [hexValue_concat, hvalue, hexDigitValue_hexDigit letters hdigit]
  · rintro ⟨rfl, hall, rfl⟩
    induction digits using List.reverseRecOn with
    | nil => exact .nil
    | append_singleton digits c ih =>
      obtain ⟨hdigits, hc⟩ : digits.all isHex = true ∧ isHex c = true := by simpa using hall
      obtain ⟨hlt, letters, hletters⟩ := eq_hexDigit_of_isHex hc
      have hmore := (ih hdigits).concat letters hlt
      rw [← hletters, ← hexValue_concat] at hmore
      rwa [List.length_append, List.length_singleton]

namespace IsHexNumeral

theorem length (h : IsHexNumeral width n digits) : digits.length = width := (isHexNumeral_iff.1 h).1

theorem lt (h : IsHexNumeral width n digits) : n < 16 ^ width := by
  induction h with
  | nil => decide
  | concat letters _ hdigit ih =>
    rw [Nat.pow_succ]
    omega

end IsHexNumeral

/-- Each number that so many digits have room for has a numeral of them. -/
theorem isHexNumeral_hexDigits (letters : LetterCase) (h : n < 16 ^ width) :
    IsHexNumeral width n (hexDigits letters width n) := by
  have hall := all_isHex_hexDigits letters width n
  have hvalue : hexValue (hexDigits letters width n) = n :=
    (hexValue_hexDigits letters width n).trans (Nat.mod_eq_of_lt h)
  exact isHexNumeral_iff.2 ⟨length_hexDigits letters width n, hall, hvalue⟩

end Rdf.Text

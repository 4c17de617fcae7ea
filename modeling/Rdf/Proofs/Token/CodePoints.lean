import Mathlib.Logic.ExistsUnique
import Rdf.Proofs.Text.Utf8
import Rdf.Proofs.Token.Escapes
import Rdf.Proofs.Token.Walks

/-!
Code points in escapes.

A code point is escaped in code units: a unit of eight hexadecimal digits, a unit of four, or two
units of four for the halves of its UTF-16 form. What a cursor reads are the units of an escape, and
what it gives is the character that has the code point. A character beyond the first 65536 is read
from just one pair of halves.
-/

namespace Rdf

open Text Scan

variable {n high low : Nat} {c : Char}

/-! ### Halves -/

/-- The halves in UTF-16 of a code point beyond the first 65536. -/
structure HasHalves (n high low : Nat) : Prop where
  beyond : 0x10000 ≤ n
  last : n ≤ 0x10FFFF
  high : high = 0xD800 + (n - 0x10000) / 0x400
  low : low = 0xDC00 + (n - 0x10000) % 0x400

theorem isHighSurrogate_iff : isHighSurrogate n = true ↔ 0xD800 ≤ n ∧ n ≤ 0xDBFF := by
  simp [isHighSurrogate]

theorem isLowSurrogate_iff : isLowSurrogate n = true ↔ 0xDC00 ≤ n ∧ n ≤ 0xDFFF := by
  simp [isLowSurrogate]

theorem not_isLowSurrogate (h : isHighSurrogate n = true) : ¬isLowSurrogate n = true := by
  rw [isHighSurrogate_iff] at h
  rw [isLowSurrogate_iff]
  omega

theorem isValidChar_iff_long : n.isValidChar ↔
    ¬(decide (0x10FFFF < n) || isHighSurrogate n || isLowSurrogate n) = true := by
  simp only [Nat.isValidChar, Bool.or_eq_true, decide_eq_true_eq, isHighSurrogate_iff,
    isLowSurrogate_iff]
  omega

theorem isValidChar_iff_short (h : n < 0x10000) : n.isValidChar ↔
    ¬isLowSurrogate n = true ∧ ¬isHighSurrogate n = true := by
  simp only [Nat.isValidChar, isHighSurrogate_iff, isLowSurrogate_iff]
  omega

theorem hasHalves_iff : HasHalves n high low ↔
    isHighSurrogate high = true ∧ isLowSurrogate low = true ∧ joinSurrogates high low = n := by
  have hjoin : joinSurrogates high low = 0x10000 + (high - 0xD800) * 0x400 + (low - 0xDC00) := rfl
  rw [isHighSurrogate_iff, isLowSurrogate_iff, hjoin]
  constructor
  · rintro ⟨hbeyond, hlast, hhigh, hlow⟩
    omega
  · rintro ⟨hhigh, hlow, hn⟩
    exact ⟨by omega, by omega, by omega, by omega⟩

theorem exists_hasHalves_iff : (∃ n, HasHalves n high low) ↔
    (0xD800 ≤ high ∧ high ≤ 0xDBFF) ∧ 0xDC00 ≤ low ∧ low ≤ 0xDFFF := by
  simp only [hasHalves_iff, isHighSurrogate_iff, isLowSurrogate_iff, exists_and_left,
    exists_eq', and_true]

theorem exists_halves (h : 0xFFFF < c.toNat) : ∃ high low, HasHalves c.toNat high low := by
  have hvalid := Utf8.isValidChar_toNat c
  simp only [Nat.isValidChar] at hvalid
  exact ⟨_, _, by omega, by omega, rfl, rfl⟩

theorem HasHalves.isValidChar (h : HasHalves n high low) : n.isValidChar := by
  have hbeyond := h.beyond
  have hlast := h.last
  exact .inr ⟨by omega, by omega⟩

theorem ofNat_eq_iff (h : n.isValidChar) : Char.ofNat n = c ↔ c.toNat = n := by
  have hvalue := Utf8.toNat_ofNat h
  constructor
  · intro hc
    rw [← hc, hvalue]
  · intro hc
    rw [← hc, Char.ofNat_toNat]

/-- Two halves are read as the character that has them. -/
theorem ofNat_joinSurrogates_eq_iff (hhigh : isHighSurrogate high = true)
    (hlow : isLowSurrogate low = true) :
    Char.ofNat (joinSurrogates high low) = c ↔ HasHalves c.toNat high low := by
  have hhalves := hasHalves_iff.2 ⟨hhigh, hlow, rfl⟩
  rw [ofNat_eq_iff hhalves.isValidChar, hasHalves_iff, eq_comm]
  exact ⟨fun h => ⟨hhigh, hlow, h⟩, fun h => h.2.2⟩

/-! ### Escapes -/

/-- A code unit as it is written: a letter for its width, and its digits. -/
structure CodeUnit where
  letter : Char
  digits : List Char
  deriving DecidableEq, Repr

variable {unit : CodeUnit} {units : List CodeUnit}

namespace CodeUnit

def text (unit : CodeUnit) : List Char := '\\' :: unit.letter :: unit.digits

def texts (units : List CodeUnit) : List Char := units.flatMap text

@[simp]
theorem texts_nil : texts [] = [] := rfl

@[simp]
theorem texts_cons : texts (unit :: units) =
    '\\' :: unit.letter :: (unit.digits ++ texts units) := by
  simp [texts, text]

end CodeUnit

/-- The escapes of a code point. -/
inductive IsEscape (n : Nat) : List CodeUnit → Prop
  | long {digits : List Char} : IsHexNumeral 8 n digits → n.isValidChar →
      IsEscape n [⟨'U', digits⟩]
  | short {digits : List Char} : IsHexNumeral 4 n digits → n.isValidChar →
      IsEscape n [⟨'u', digits⟩]
  | pair {high low : Nat} {first second : List Char} : HasHalves n high low →
      IsHexNumeral 4 high first → IsHexNumeral 4 low second →
      IsEscape n [⟨'u', first⟩, ⟨'u', second⟩]

namespace IsEscape

theorem isValidChar (h : IsEscape n units) : n.isValidChar := by
  cases h with
  | long _ hvalid | short _ hvalid => exact hvalid
  | pair hhalves => exact hhalves.isValidChar

theorem length (h : IsEscape n units) :
    (CodeUnit.texts units).length = 10 ∨ (CodeUnit.texts units).length = 6 ∨
      (CodeUnit.texts units).length = 12 := by
  cases h with
  | long hdigits | short hdigits => simp [hdigits.length]
  | pair _ hfirst hsecond => simp [hfirst.length, hsecond.length]

end IsEscape

/-! ### Scanners -/

namespace Scan

variable {text rest : List Char}

theorem lowHalf_eq_ok_iff (hhigh : isHighSurrogate high = true) :
    lowHalf high text = .ok (c, rest) ↔ ∃ low second, HasHalves c.toNat high low ∧
      IsHexNumeral 4 low second ∧ text = '\\' :: 'u' :: (second ++ rest) := by
  constructor
  · intro h
    unfold lowHalf at h
    split at h
    · next digits =>
      split at h
      · simp at h
      · next low left hnumber =>
        split at h
        · next hlow =>
          simp only [Except.ok.injEq, Prod.mk.injEq] at h
          obtain ⟨hc, rfl⟩ := h
          obtain ⟨second, hsecond, rfl⟩ := hexNumber_eq_ok_iff.1 hnumber
          have hhalves := (ofNat_joinSurrogates_eq_iff hhigh hlow).1 hc
          exact ⟨low, second, hhalves, hsecond, rfl⟩
        · simp [fail] at h
    · simp [fail] at h
  · rintro ⟨low, second, hhalves, hsecond, rfl⟩
    obtain ⟨-, hlow, -⟩ := hasHalves_iff.1 hhalves
    have hnumber : hexNumber 4 "\\u" (second ++ rest) = .ok (low, rest) :=
      hexNumber_eq_ok_iff.2 ⟨second, hsecond, rfl⟩
    have hchar := (ofNat_joinSurrogates_eq_iff hhigh hlow).2 hhalves
    simp [lowHalf, hnumber, hlow, hchar]

theorem exists_escape (h : unicodeEscape text = .ok (c, rest)) :
    ∃ units, IsEscape c.toNat units ∧ text = CodeUnit.texts units ++ rest := by
  unfold unicodeEscape at h
  split at h
  · next digits =>
    split at h
    · simp at h
    · next n left hnumber =>
      obtain ⟨eight, height, rfl⟩ := hexNumber_eq_ok_iff.1 hnumber
      split at h
      · simp [fail] at h
      · next hrange =>
        have hvalid := isValidChar_iff_long.2 hrange
        simp only [Except.ok.injEq, Prod.mk.injEq] at h
        obtain ⟨hc, rfl⟩ := h
        obtain rfl := (ofNat_eq_iff hvalid).1 hc
        exact ⟨_, .long height hvalid, by simp⟩
  · next digits =>
    split at h
    · simp at h
    · next n left hnumber =>
      obtain ⟨first, hfirst, rfl⟩ := hexNumber_eq_ok_iff.1 hnumber
      split at h
      · simp [fail] at h
      · next hlow =>
        split at h
        · next hhigh =>
          obtain ⟨low, second, hhalves, hsecond, rfl⟩ := (lowHalf_eq_ok_iff hhigh).1 h
          exact ⟨_, .pair hhalves hfirst hsecond, by simp⟩
        · next hhigh =>
          have hvalid := (isValidChar_iff_short hfirst.lt).2 ⟨hlow, hhigh⟩
          simp only [Except.ok.injEq, Prod.mk.injEq] at h
          obtain ⟨hc, rfl⟩ := h
          obtain rfl := (ofNat_eq_iff hvalid).1 hc
          exact ⟨_, .short hfirst hvalid, by simp⟩
  · simp [fail] at h

theorem unicodeEscape_append (h : IsEscape c.toNat units) (rest : List Char) :
    unicodeEscape (CodeUnit.texts units ++ rest) = .ok (c, rest) := by
  have hchar := Char.ofNat_toNat c
  cases h with
  | @long digits hdigits hvalid =>
    have hrange := isValidChar_iff_long.1 hvalid
    have hnumber : hexNumber 8 "\\U" (digits ++ rest) = .ok (c.toNat, rest) :=
      hexNumber_eq_ok_iff.2 ⟨digits, hdigits, rfl⟩
    simp [unicodeEscape, hnumber, -Bool.or_eq_true, hrange, hchar]
  | @short digits hdigits hvalid =>
    obtain ⟨hlow, hhigh⟩ := (isValidChar_iff_short hdigits.lt).1 hvalid
    have hnumber : hexNumber 4 "\\u" (digits ++ rest) = .ok (c.toNat, rest) :=
      hexNumber_eq_ok_iff.2 ⟨digits, hdigits, rfl⟩
    simp [unicodeEscape, hnumber, hhigh, hlow, hchar]
  | @pair high low first second hhalves hfirst hsecond =>
    obtain ⟨hhigh, -⟩ := hasHalves_iff.1 hhalves
    have hnumber : hexNumber 4 "\\u" (first ++ '\\' :: 'u' :: (second ++ rest)) =
        .ok (high, '\\' :: 'u' :: (second ++ rest)) :=
      hexNumber_eq_ok_iff.2 ⟨first, hfirst, rfl⟩
    have hhalf : lowHalf high ('\\' :: 'u' :: (second ++ rest)) = .ok (c, rest) :=
      (lowHalf_eq_ok_iff hhigh).2 ⟨low, second, hhalves, hsecond, rfl⟩
    simp [unicodeEscape, hnumber, not_isLowSurrogate hhigh, hhigh, hhalf]

theorem unicodeEscape_eq_ok_iff : unicodeEscape text = .ok (c, rest) ↔
    ∃ units, IsEscape c.toNat units ∧ text = CodeUnit.texts units ++ rest := by
  refine ⟨exists_escape, ?_⟩
  rintro ⟨units, hunits, rfl⟩
  exact unicodeEscape_append hunits rest

end Scan

/-! ### Cursors -/

namespace Cursor

variable {cursor behind : Cursor} {what : String}

/-- Whether a cursor finds code units, one behind the other, and stands behind them then. -/
def Finds : Cursor → List CodeUnit → Cursor → Prop
  | cursor, [], behind => behind = cursor
  | cursor, unit :: units, behind =>
    cursor.lookingAt ['\\', unit.letter] = true ∧
      unit.digits <+: (cursor.moveTo (cursor.offset + 2)).rest ∧
        Finds (cursor.moveTo (cursor.offset + 2 + unit.digits.length)) units behind

theorem append_prefix_iff {first second text : List Char} :
    first ++ second <+: text ↔ first <+: text ∧ second <+: text.drop first.length := by
  constructor
  · rintro ⟨rest, rfl⟩
    simp [List.append_assoc]
  · rintro ⟨⟨rest, rfl⟩, hsecond⟩
    rw [List.drop_left] at hsecond
    exact (List.prefix_append_right_inj first).2 hsecond

/-- From the start of a document on, a cursor finds code units where the text goes on with them. -/
theorem finds_of_nonneg (h : 0 ≤ cursor.offset) : cursor.Finds units behind ↔
    CodeUnit.texts units <+: cursor.rest ∧
      behind = cursor.moveTo (cursor.offset + (CodeUnit.texts units).length) := by
  induction units generalizing cursor with
  | nil => simp [Finds, moveTo]
  | cons unit units ih =>
    have hmark := lookingAt_of_nonneg h (List.cons_ne_nil '\\' [unit.letter])
    have hdigits := @rest_moveTo cursor (cursor.offset + 2) 2 h rfl
    have hunits := @rest_moveTo cursor (cursor.offset + 2 + unit.digits.length)
      (2 + unit.digits.length) h (by omega)
    have hlater : 0 ≤ cursor.offset + 2 + unit.digits.length := by omega
    have htext : CodeUnit.texts (unit :: units) =
        ['\\', unit.letter] ++ (unit.digits ++ CodeUnit.texts units) := by simp
    have hbehind : (cursor.moveTo (cursor.offset + 2 + unit.digits.length)).moveTo
        (cursor.offset + 2 + unit.digits.length + (CodeUnit.texts units).length) =
        cursor.moveTo (cursor.offset +
          (['\\', unit.letter] ++ (unit.digits ++ CodeUnit.texts units)).length) := by
      simp only [moveTo, List.length_append, List.length_cons, List.length_nil]
      congr 1
      omega
    rw [Finds, hmark, hdigits, ih (by simpa [moveTo] using hlater), hunits, htext,
      append_prefix_iff, append_prefix_iff, List.drop_drop, ← hbehind, and_assoc, and_assoc]
    rfl

theorem walk_hexNumber_eq_ok (count : Nat) (h : 0 < count) :
    cursor.walk (Walk.hexNumber count what) = (.ok n, behind) ↔
      ∃ digits, IsHexNumeral count n digits ∧ digits <+: cursor.rest ∧
        behind = cursor.moveTo (cursor.offset + digits.length) := by
  have hstep : cursor.walk (Walk.hexNumber count what) = cursor.hexNumber count what := rfl
  rw [hstep, hexNumber, if_neg (by omega), if_neg (by omega), run_eq_ok_iff]
  constructor
  · rintro ⟨left, hnumber, rfl⟩
    obtain ⟨digits, hdigits, hrest⟩ := hexNumber_eq_ok_iff.1 hnumber
    rw [offsetOf_append hrest]
    exact ⟨digits, hdigits, ⟨left, hrest.symm⟩, rfl⟩
  · rintro ⟨digits, hdigits, ⟨left, hrest⟩, rfl⟩
    refine ⟨left, hexNumber_eq_ok_iff.2 ⟨digits, hdigits, hrest.symm⟩, ?_⟩
    rw [offsetOf_append hrest.symm]

theorem walk_lowHalf_eq_ok (hhigh : isHighSurrogate high = true) :
    cursor.walk (Walk.lowHalf high) = (.ok c, behind) ↔ ∃ low second,
      HasHalves c.toNat high low ∧ IsHexNumeral 4 low second ∧
        cursor.Finds [⟨'u', second⟩] behind := by
  unfold Walk.lowHalf
  rw [walk_bind_eq_ok]
  constructor
  · rintro ⟨found, middle, hfound, h⟩
    obtain ⟨hmark, hmiddle⟩ := walk_takeIf_eq_ok.1 hfound
    cases found with
    | false =>
      obtain ⟨_, _, hfail, -⟩ := walk_bind_eq_ok.1 h
      exact absurd hfail walk_fail_ne_ok
    | true =>
      obtain rfl : middle = cursor.moveTo (cursor.offset + 2) := hmiddle
      obtain ⟨low, last, hnumber, h⟩ := walk_bind_eq_ok.1 h
      obtain ⟨second, hsecond, hstart, rfl⟩ := (walk_hexNumber_eq_ok 4 (by decide)).1 hnumber
      split at h
      · next hlow =>
        obtain ⟨hc, rfl⟩ := walk_pure_eq_ok.1 h
        have hhalves := (ofNat_joinSurrogates_eq_iff hhigh hlow).1 hc
        exact ⟨low, second, hhalves, hsecond, hmark, hstart, rfl⟩
      · exact absurd h walk_fail_ne_ok
  · rintro ⟨low, second, hhalves, hsecond, hmark, hstart, rfl⟩
    obtain ⟨-, hlow, -⟩ := hasHalves_iff.1 hhalves
    refine ⟨true, _, walk_takeIf_eq_ok.2 ⟨hmark, rfl⟩, ?_⟩
    refine walk_bind_eq_ok.2 ⟨low, _, (walk_hexNumber_eq_ok 4 (by decide)).2
      ⟨second, hsecond, hstart, rfl⟩, ?_⟩
    rw [if_pos hlow]
    exact walk_pure_eq_ok.2 ⟨(ofNat_joinSurrogates_eq_iff hhigh hlow).2 hhalves, rfl⟩

theorem not_wide (h : cursor.lookingAt ['\\', 'u'] = true) :
    cursor.lookingAt ['\\', 'U'] = false := by
  rw [← Bool.not_eq_true]
  intro hwide
  have hsame := eq_of_lookingAt h hwide rfl
  simp at hsame

theorem exists_escape_of_walk (h : cursor.walk Walk.unicodeEscape = (.ok c, behind)) :
    ∃ units, IsEscape c.toNat units ∧ cursor.Finds units behind := by
  unfold Walk.unicodeEscape at h
  rw [walk_bind_eq_ok] at h
  obtain ⟨wide, start, hwide, h⟩ := h
  obtain ⟨hmark, hstart⟩ := walk_takeIf_eq_ok.1 hwide
  cases wide with
  | true =>
    obtain rfl : start = cursor.moveTo (cursor.offset + 2) := hstart
    obtain ⟨n, last, hnumber, h⟩ := walk_bind_eq_ok.1 h
    obtain ⟨digits, hdigits, hrest, rfl⟩ := (walk_hexNumber_eq_ok 8 (by decide)).1 hnumber
    split at h
    · exact absurd h walk_fail_ne_ok
    · next hrange =>
      have hvalid := isValidChar_iff_long.2 hrange
      obtain ⟨hc, rfl⟩ := walk_pure_eq_ok.1 h
      obtain rfl := (ofNat_eq_iff hvalid).1 hc
      exact ⟨_, .long hdigits hvalid, hmark, hrest, rfl⟩
  | false =>
    obtain rfl : start = cursor := hstart
    obtain ⟨_, middle, hrequire, h⟩ := walk_bind_eq_ok.1 h
    obtain ⟨hmark, hmiddle⟩ := walk_require_eq_ok.1 hrequire
    obtain rfl : middle = start.moveTo (start.offset + 2) := hmiddle
    obtain ⟨n, last, hnumber, h⟩ := walk_bind_eq_ok.1 h
    obtain ⟨first, hfirst, hrest, rfl⟩ := (walk_hexNumber_eq_ok 4 (by decide)).1 hnumber
    split at h
    · exact absurd h walk_fail_ne_ok
    · next hlow =>
      split at h
      · next hhigh =>
        obtain ⟨low, second, hhalves, hsecond, hlater⟩ := (walk_lowHalf_eq_ok hhigh).1 h
        exact ⟨_, .pair hhalves hfirst hsecond, hmark, hrest, hlater⟩
      · next hhigh =>
        have hvalid := (isValidChar_iff_short hfirst.lt).2 ⟨hlow, hhigh⟩
        obtain ⟨hc, rfl⟩ := walk_pure_eq_ok.1 h
        obtain rfl := (ofNat_eq_iff hvalid).1 hc
        exact ⟨_, .short hfirst hvalid, hmark, hrest, rfl⟩

theorem walk_unicodeEscape (hunits : IsEscape c.toNat units) (hfinds : cursor.Finds units behind) :
    cursor.walk Walk.unicodeEscape = (.ok c, behind) := by
  unfold Walk.unicodeEscape
  rw [walk_bind_eq_ok]
  have hchar := Char.ofNat_toNat c
  cases hunits with
  | @long digits hdigits hvalid =>
    obtain ⟨hmark, hrest, rfl⟩ := hfinds
    refine ⟨true, _, walk_takeIf_eq_ok.2 ⟨hmark, rfl⟩, ?_⟩
    refine walk_bind_eq_ok.2 ⟨_, _, (walk_hexNumber_eq_ok 8 (by decide)).2
      ⟨digits, hdigits, hrest, rfl⟩, ?_⟩
    rw [if_neg (isValidChar_iff_long.1 hvalid)]
    exact walk_pure_eq_ok.2 ⟨hchar, rfl⟩
  | @short digits hdigits hvalid =>
    obtain ⟨hmark, hrest, rfl⟩ := hfinds
    obtain ⟨hlow, hhigh⟩ := (isValidChar_iff_short hdigits.lt).1 hvalid
    refine ⟨false, _, walk_takeIf_eq_ok.2 ⟨not_wide hmark, rfl⟩, ?_⟩
    refine walk_bind_eq_ok.2 ⟨(), _, walk_require_eq_ok.2 ⟨hmark, rfl⟩, ?_⟩
    refine walk_bind_eq_ok.2 ⟨_, _, (walk_hexNumber_eq_ok 4 (by decide)).2
      ⟨digits, hdigits, hrest, rfl⟩, ?_⟩
    rw [if_neg hlow, if_neg hhigh]
    exact walk_pure_eq_ok.2 ⟨hchar, rfl⟩
  | @pair high low first second hhalves hfirst hsecond =>
    obtain ⟨hmark, hrest, hlater⟩ := hfinds
    obtain ⟨hhigh, -⟩ := hasHalves_iff.1 hhalves
    refine ⟨false, _, walk_takeIf_eq_ok.2 ⟨not_wide hmark, rfl⟩, ?_⟩
    refine walk_bind_eq_ok.2 ⟨(), _, walk_require_eq_ok.2 ⟨hmark, rfl⟩, ?_⟩
    refine walk_bind_eq_ok.2 ⟨high, _, (walk_hexNumber_eq_ok 4 (by decide)).2
      ⟨first, hfirst, hrest, rfl⟩, ?_⟩
    rw [if_neg (not_isLowSurrogate hhigh), if_pos hhigh]
    exact (walk_lowHalf_eq_ok hhigh).2 ⟨low, second, hhalves, hsecond, hlater⟩

/-- A walk finds the units of an escape, also before the start of a document. -/
theorem walk_unicodeEscape_eq_ok : cursor.walk Walk.unicodeEscape = (.ok c, behind) ↔
    ∃ units, IsEscape c.toNat units ∧ cursor.Finds units behind :=
  ⟨exists_escape_of_walk, fun ⟨_, hunits, hfinds⟩ => walk_unicodeEscape hunits hfinds⟩

/-- A cursor reads the escapes of characters, and nothing else. -/
theorem unicodeEscape_eq_ok_iff : cursor.unicodeEscape = (.ok c, behind) ↔
    ∃ units, IsEscape c.toNat units ∧ cursor.Finds units behind := by
  by_cases h : 0 ≤ cursor.offset
  · rw [unicodeEscape, read_of_nonneg h, run_eq_ok_iff]
    simp only [Scan.unicodeEscape_eq_ok_iff, finds_of_nonneg h]
    constructor
    · rintro ⟨left, ⟨units, hunits, hrest⟩, rfl⟩
      rw [offsetOf_append hrest]
      exact ⟨units, hunits, ⟨left, hrest.symm⟩, rfl⟩
    · rintro ⟨units, hunits, ⟨left, hrest⟩, rfl⟩
      refine ⟨left, ⟨units, hunits, hrest.symm⟩, ?_⟩
      rw [offsetOf_append hrest.symm]
  · rw [unicodeEscape, read, if_neg h, walk_unicodeEscape_eq_ok]

theorem exists_unicodeEscape_iff :
    (∃ c behind, cursor.unicodeEscape = (.ok c, behind)) ↔
      ∃ n units behind, IsEscape n units ∧ cursor.Finds units behind := by
  constructor
  · rintro ⟨c, behind, h⟩
    obtain ⟨units, hunits, hfinds⟩ := unicodeEscape_eq_ok_iff.1 h
    exact ⟨c.toNat, units, behind, hunits, hfinds⟩
  · rintro ⟨n, units, behind, hunits, hfinds⟩
    refine ⟨Char.ofNat n, behind, unicodeEscape_eq_ok_iff.2 ⟨units, ?_, hfinds⟩⟩
    rwa [Utf8.toNat_ofNat hunits.isValidChar]

/-- There are documents in which two numbers are escaped, one behind the other. -/
theorem exists_finds_pair (hhigh : high < 0x10000) (hlow : low < 0x10000) :
    ∃ first second, IsHexNumeral 4 high first ∧ IsHexNumeral 4 low second ∧
      ∃ cursor behind : Cursor, cursor.Finds [⟨'u', first⟩, ⟨'u', second⟩] behind := by
  refine ⟨_, _, isHexNumeral_hexDigits .upper hhigh, isHexNumeral_hexDigits .upper hlow, ?_⟩
  let units : List CodeUnit := [⟨'u', hexDigits .upper 4 high⟩, ⟨'u', hexDigits .upper 4 low⟩]
  let document : Cursor := ⟨CodeUnit.texts units, 0, false⟩
  exact ⟨document, _, (finds_of_nonneg (Int.le_refl 0)).2 ⟨List.prefix_rfl, rfl⟩⟩

/-- A character beyond the first 65536 is read from its halves and from no other two. -/
theorem existsUnique_halves (h : 0xFFFF < c.toNat) : ∃! pair : Nat × Nat,
    ((0xD800 ≤ pair.1 ∧ pair.1 ≤ 0xDBFF) ∧ 0xDC00 ≤ pair.2 ∧ pair.2 ≤ 0xDFFF) ∧
      ∀ first second, IsHexNumeral 4 pair.1 first → IsHexNumeral 4 pair.2 second →
        ∀ cursor behind : Cursor, cursor.Finds [⟨'u', first⟩, ⟨'u', second⟩] behind →
          cursor.unicodeEscape = (.ok c, behind) := by
  obtain ⟨high, low, hhalves⟩ := exists_halves h
  refine ⟨(high, low), ⟨exists_hasHalves_iff.1 ⟨_, hhalves⟩, ?_⟩, ?_⟩
  · intro first second hfirst hsecond cursor behind hfinds
    exact unicodeEscape_eq_ok_iff.2 ⟨_, .pair hhalves hfirst hsecond, hfinds⟩
  · rintro ⟨high', low'⟩ ⟨hrange, hreads⟩
    obtain ⟨n, hother⟩ := exists_hasHalves_iff.2 hrange
    obtain ⟨first, second, hfirst, hsecond, cursor, behind, hfinds⟩ :=
      @exists_finds_pair high' low' (by omega) (by omega)
    have hread := hreads first second hfirst hsecond cursor behind hfinds
    -- the same units are read as the character that has the other halves
    obtain ⟨d, rfl⟩ : ∃ d : Char, d.toNat = n := ⟨_, Utf8.toNat_ofNat hother.isValidChar⟩
    have hagain := unicodeEscape_eq_ok_iff.2 ⟨_, .pair hother hfirst hsecond, hfinds⟩
    obtain rfl : c = d := by simpa using hread.symm.trans hagain
    exact Prod.ext (hother.high.trans hhalves.high.symm) (hother.low.trans hhalves.low.symm)

/-- What is read is an escape of the character that is given. It has ten characters, six or twelve,
its code point is no half of a pair, and a character beyond the first 65536 is read from just one
pair of halves. -/
theorem unicodeEscape_decodes :
    (∀ cursor : Cursor,
      ((∃ c behind, cursor.unicodeEscape = (.ok c, behind)) ↔
        ∃ n units behind, IsEscape n units ∧ cursor.Finds units behind) ∧
      ∀ c behind, cursor.unicodeEscape = (.ok c, behind) ↔
        ∃ units, IsEscape c.toNat units ∧ cursor.Finds units behind) ∧
    (∀ (text : List Char) (offset : Nat) (afterString : Bool) (units : List CodeUnit)
      (behind : Cursor), Finds ⟨text, offset, afterString⟩ units behind ↔
        CodeUnit.texts units <+: text.drop offset ∧
          behind = ⟨text, offset + (CodeUnit.texts units).length, afterString⟩) ∧
    (∀ n units, IsEscape n units → n.isValidChar ∧ ((CodeUnit.texts units).length = 10 ∨
      (CodeUnit.texts units).length = 6 ∨ (CodeUnit.texts units).length = 12)) ∧
    (∀ high low, (∃ n, HasHalves n high low) ↔
      (0xD800 ≤ high ∧ high ≤ 0xDBFF) ∧ 0xDC00 ≤ low ∧ low ≤ 0xDFFF) ∧
    ∀ c : Char, 0xFFFF < c.toNat → ∃! pair : Nat × Nat,
      ((0xD800 ≤ pair.1 ∧ pair.1 ≤ 0xDBFF) ∧ 0xDC00 ≤ pair.2 ∧ pair.2 ≤ 0xDFFF) ∧
        ∀ first second, IsHexNumeral 4 pair.1 first → IsHexNumeral 4 pair.2 second →
          ∀ cursor behind : Cursor, cursor.Finds [⟨'u', first⟩, ⟨'u', second⟩] behind →
            cursor.unicodeEscape = (.ok c, behind) := by
  refine ⟨fun cursor => ⟨exists_unicodeEscape_iff, fun c behind => unicodeEscape_eq_ok_iff⟩, ?_,
    fun n units h => ⟨h.isValidChar, h.length⟩, fun high low => exists_hasHalves_iff,
    fun c => existsUnique_halves⟩
  intro text offset afterString units behind
  exact finds_of_nonneg (Int.natCast_nonneg offset)

theorem unicodeEscape_decodes_halves :
    let units : List CodeUnit := [⟨'u', "d83D".toList⟩, ⟨'u', "DE00".toList⟩]
    IsEscape '😀'.toNat units ∧ '😀'.toNat.isValidChar ∧
      unicodeEscape ⟨"é\\ud83D\\uDE00".toList, 1, false⟩ =
        (.ok '😀', ⟨"é\\ud83D\\uDE00".toList, 13, false⟩) ∧
      0xFFFF < '😀'.toNat ∧ ∃! pair : Nat × Nat,
        ((0xD800 ≤ pair.1 ∧ pair.1 ≤ 0xDBFF) ∧ 0xDC00 ≤ pair.2 ∧ pair.2 ≤ 0xDFFF) ∧
          ∀ first second, IsHexNumeral 4 pair.1 first → IsHexNumeral 4 pair.2 second →
            ∀ cursor behind : Cursor, cursor.Finds [⟨'u', first⟩, ⟨'u', second⟩] behind →
              cursor.unicodeEscape = (.ok '😀', behind) := by
  intro units
  obtain ⟨hreads, hfinds, hescape, -, hunique⟩ := unicodeEscape_decodes
  have hhalves : HasHalves '😀'.toNat 0xD83D 0xDE00 := by
    constructor <;> decide
  have hunits : IsEscape '😀'.toNat units :=
    .pair hhalves (isHexNumeral_iff.2 (by decide)) (isHexNumeral_iff.2 (by decide))
  have hbehind := (hfinds "é\\ud83D\\uDE00".toList 1 false units _).2 ⟨by decide, rfl⟩
  exact ⟨hunits, (hescape _ _ hunits).1, ((hreads _).2 _ _).2 ⟨units, hunits, hbehind⟩,
    by decide, hunique _ (by decide)⟩

end Cursor

end Rdf

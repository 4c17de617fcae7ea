import Rdf.Text.Class
import Rdf.Token.Scan

/-!
Escapes.

A code point is written in four or eight hexadecimal digits, and one beyond the first 65536 also as
a pair of surrogates. Surrogates stand for no character of their own.
-/

namespace Rdf.Scan

open Text

def hexNumber (count : Nat) (what : String) (text : List Char) : Scan Nat :=
  let digits := text.take count
  if digits.length = count ∧ digits.all isHex then .ok (hexValue digits, text.drop count)
  else fail (.hexDigits what) text

def isHighSurrogate (n : Nat) : Bool := 0xD800 ≤ n && n ≤ 0xDBFF

def isLowSurrogate (n : Nat) : Bool := 0xDC00 ≤ n && n ≤ 0xDFFF

/-- The code point of a surrogate pair. -/
def joinSurrogates (high low : Nat) : Nat := 0x10000 + (high - 0xD800) * 0x400 + (low - 0xDC00)

/-- Reads the second half of a surrogate pair, whose first half has been read. -/
def lowHalf (high : Nat) : List Char → Scan Char
  | '\\' :: 'u' :: digits =>
    match hexNumber 4 "\\u" digits with
    | .error fault => .error fault
    | .ok (low, rest) =>
      if isLowSurrogate low then .ok (Char.ofNat (joinSurrogates high low), rest)
      else fail .lowSurrogate rest
  | text => fail .loneSurrogate text

def unicodeEscape : List Char → Scan Char
  | '\\' :: 'U' :: digits =>
    match hexNumber 8 "\\U" digits with
    | .error fault => .error fault
    | .ok (n, rest) =>
      if 0x10FFFF < n || isHighSurrogate n || isLowSurrogate n then fail .codePointRange rest
      else .ok (Char.ofNat n, rest)
  | '\\' :: 'u' :: digits =>
    match hexNumber 4 "\\u" digits with
    | .error fault => .error fault
    | .ok (n, rest) =>
      if isLowSurrogate n then fail .loneSurrogate rest
      else if isHighSurrogate n then lowHalf n rest
      else .ok (Char.ofNat n, rest)
  | text => fail .unicodeEscape text

/-- What a letter stands for behind a backslash in a string. -/
def escapedChar? : Char → Option Char
  | 't' => some '\t'
  | 'b' => some '\x08'
  | 'n' => some '\n'
  | 'r' => some '\r'
  | 'f' => some '\x0c'
  | '"' => some '"'
  | '\'' => some '\''
  | '\\' => some '\\'
  | _ => none

/-- Reads an escape of a string, which begins with any one character. -/
def stringEscape (text : List Char) : Scan Char :=
  match text with
  | _ :: letter :: rest =>
    if letter = 'u' ∨ letter = 'U' then unicodeEscape text
    else match escapedChar? letter with
      | some c => .ok (c, rest)
      | none => .error ⟨.stringEscape, letter :: rest, text⟩
  | _ => .error ⟨.stringEscape, [], text⟩

theorem length_hexNumber {count : Nat} {what : String} {text rest : List Char} {n : Nat}
    (h : hexNumber count what text = .ok (n, rest)) : rest.length + count = text.length := by
  unfold hexNumber fail at h
  simp only at h
  split at h
  · next hc =>
    simp only [Except.ok.injEq, Prod.mk.injEq] at h
    have := hc.1
    rw [List.length_take] at this
    rw [← h.2, List.length_drop]
    omega
  · simp at h

theorem length_lowHalf {high : Nat} {text rest : List Char} {c : Char}
    (h : lowHalf high text = .ok (c, rest)) : rest.length < text.length := by
  unfold lowHalf fail at h
  split at h
  · split at h
    · simp at h
    · next hn =>
      have hdigits := length_hexNumber hn
      split at h
      · simp only [Except.ok.injEq, Prod.mk.injEq] at h
        rw [← h.2]
        simp only [List.length_cons]
        omega
      · simp at h
  · simp at h

theorem length_unicodeEscape {text rest : List Char} {c : Char}
    (h : unicodeEscape text = .ok (c, rest)) : rest.length < text.length := by
  unfold unicodeEscape fail at h
  split at h
  · split at h
    · simp at h
    · next hn =>
      have hdigits := length_hexNumber hn
      split at h
      · simp at h
      · simp only [Except.ok.injEq, Prod.mk.injEq] at h
        rw [← h.2]
        simp only [List.length_cons]
        omega
  · split at h
    · simp at h
    · next hn =>
      have hdigits := length_hexNumber hn
      simp only [List.length_cons]
      split at h
      · simp at h
      · split at h
        · have hlow := length_lowHalf h
          omega
        · simp only [Except.ok.injEq, Prod.mk.injEq] at h
          rw [← h.2]
          omega
  · simp at h

theorem length_stringEscape {text rest : List Char} {c : Char}
    (h : stringEscape text = .ok (c, rest)) : rest.length < text.length := by
  unfold stringEscape at h
  split at h
  · split at h
    · exact length_unicodeEscape h
    · split at h
      · simp only [Except.ok.injEq, Prod.mk.injEq] at h
        rw [← h.2]
        simp only [List.length_cons]
        omega
      · simp at h
  · simp at h

end Rdf.Scan

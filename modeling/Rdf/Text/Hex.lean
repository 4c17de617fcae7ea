/-!
Numbers in hexadecimal digits.

`hexDigits` writes a number in a fixed number of digits and `hexValue` reads digits of either case.
-/

namespace Rdf.Text

/-- Which letters stand for the digits from ten on. -/
inductive LetterCase where
  | upper
  | lower
  deriving DecidableEq, Repr

def hexDigit (letters : LetterCase) (digit : Nat) : Char :=
  if digit < 10 then Char.ofNat ('0'.toNat + digit)
  else match letters with
    | .upper => Char.ofNat ('A'.toNat + (digit - 10))
    | .lower => Char.ofNat ('a'.toNat + (digit - 10))

/-- The last `width` digits of a number, the highest first. -/
def hexDigits (letters : LetterCase) : Nat → Nat → List Char
  | 0, _ => []
  | width + 1, n => hexDigits letters width (n / 16) ++ [hexDigit letters (n % 16)]

def hexDigitValue (c : Char) : Nat :=
  if c ≤ '9' then c.toNat - '0'.toNat
  else if c ≤ 'F' then c.toNat - 'A'.toNat + 10
  else c.toNat - 'a'.toNat + 10

/-- The value of a row of hexadecimal digits, the highest first. -/
def hexValue (digits : List Char) : Nat :=
  digits.foldl (fun value c => value * 16 + hexDigitValue c) 0

theorem length_hexDigits (letters : LetterCase) (width n : Nat) :
    (hexDigits letters width n).length = width := by
  induction width generalizing n with
  | zero => rfl
  | succ width ih => simp [hexDigits, ih]

theorem hexValue_concat (digits : List Char) (c : Char) :
    hexValue (digits ++ [c]) = hexValue digits * 16 + hexDigitValue c := by
  simp [hexValue]

theorem hexDigitValue_hexDigit (letters : LetterCase) {digit : Nat} (h : digit < 16) :
    hexDigitValue (hexDigit letters digit) = digit := by
  revert digit
  cases letters <;> decide

/-- The digits of a number give back as much of it as they have room for. -/
theorem hexValue_hexDigits (letters : LetterCase) (width n : Nat) :
    hexValue (hexDigits letters width n) = n % Nat.pow 16 width := by
  induction width generalizing n with
  | zero => simp [hexDigits, hexValue, Nat.mod_one]
  | succ width ih =>
    have hpow : Nat.pow 16 (width + 1) = 16 * Nat.pow 16 width := Nat.pow_succ'
    rw [hexDigits, hexValue_concat, ih, hexDigitValue_hexDigit letters (Nat.mod_lt n (by decide)),
      hpow, Nat.mod_mul]
    omega

end Rdf.Text

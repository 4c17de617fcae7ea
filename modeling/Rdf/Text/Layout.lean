import Rdf.Text.Class

/-!
Blanks and line ends.

Names of formats are compared without the blanks around them, in lower case, and text that comes
from a file has its line ends written as line feeds.
-/

namespace Rdf.Text

/-- The white space of Unicode, with the four separators of ASCII. -/
def blankRanges : List (Nat × Nat) :=
  [(0x0009, 0x000D), (0x001C, 0x0020), (0x0085, 0x0085), (0x00A0, 0x00A0), (0x1680, 0x1680),
    (0x2000, 0x200A), (0x2028, 0x2029), (0x202F, 0x202F), (0x205F, 0x205F), (0x3000, 0x3000)]

def isBlank (c : Char) : Bool := inRanges blankRanges c

def trim (text : List Char) : List Char :=
  ((text.dropWhile isBlank).reverse.dropWhile isBlank).reverse

def lowerCase (text : List Char) : List Char := text.map Char.toLower

/-- A text in which each of CR LF, CR and LF has become a line feed. -/
def unifyLines : List Char → List Char
  | '\r' :: '\n' :: rest => '\n' :: unifyLines rest
  | c :: rest => (if c = '\r' then '\n' else c) :: unifyLines rest
  | [] => []

/-- What stands for a character in upper case, where that is ASCII; else the character. Some
letters beyond ASCII become one, two or three letters of it. -/
def upperChar (c : Char) : List Char :=
  match c.toNat with
  | 0x00DF => ['S', 'S']
  | 0x0131 => ['I']
  | 0x017F => ['S']
  | 0xFB00 => ['F', 'F']
  | 0xFB01 => ['F', 'I']
  | 0xFB02 => ['F', 'L']
  | 0xFB03 => ['F', 'F', 'I']
  | 0xFB04 => ['F', 'F', 'L']
  | 0xFB05 => ['S', 'T']
  | 0xFB06 => ['S', 'T']
  | _ => [c.toUpper]

/-- A text in upper case, as far as that leads to ASCII: two texts whose upper case is the same
word of ASCII letters have the same image. -/
def upperCase (text : List Char) : List Char := text.flatMap upperChar

end Rdf.Text

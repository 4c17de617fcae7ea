/-!
The classes of characters that the Turtle and N-Triples grammars refer to.

A class is a decidable predicate on characters. `CharClass.holds` asks the same question of a whole
text, where a text of one character stands for that character.
-/

namespace Rdf.Text

/-- Blank characters that may stand between tokens. -/
def layout : List Char := [' ', '\t', '\r', '\n']

def isLayout (c : Char) : Bool := layout.contains c

/-- The decimal digits of ASCII. -/
def isDigit (c : Char) : Bool := '0' ≤ c && c ≤ '9'

/-- The letters of ASCII. -/
def isLetter (c : Char) : Bool := ('A' ≤ c && c ≤ 'Z') || ('a' ≤ c && c ≤ 'z')

def isHex (c : Char) : Bool := isDigit c || ('a' ≤ c && c ≤ 'f') || ('A' ≤ c && c ≤ 'F')

def inRanges (ranges : List (Nat × Nat)) (c : Char) : Bool :=
  ranges.any fun range => range.1 ≤ c.toNat && c.toNat ≤ range.2

/-- The code points beyond ASCII that may begin a name. -/
def nameBaseRanges : List (Nat × Nat) :=
  [(0x00C0, 0x00D6), (0x00D8, 0x00F6), (0x00F8, 0x02FF), (0x0370, 0x037D), (0x037F, 0x1FFF),
    (0x200C, 0x200D), (0x2070, 0x218F), (0x2C00, 0x2FEF), (0x3001, 0xD7FF), (0xF900, 0xFDCF),
    (0xFDF0, 0xFFFD), (0x10000, 0xEFFFF)]

/-- Characters that may begin the label of a namespace. -/
def isNameBase (c : Char) : Bool := isLetter c || inRanges nameBaseRanges c

/-- Characters that may begin any name: those of `isNameBase` and the underscore. -/
def isNameStart (c : Char) : Bool := c == '_' || isNameBase c

/-- The code points beyond ASCII that may continue a name but not begin it. -/
def nameOnlyRanges : List (Nat × Nat) := [(0x00B7, 0x00B7), (0x0300, 0x036F), (0x203F, 0x2040)]

def isNameChar (c : Char) : Bool :=
  isNameStart c || isDigit c || c == '-' || inRanges nameOnlyRanges c

/-- Marks that end a keyword, a number or a name that they follow. -/
def boundaryMarks : List Char :=
  [';', ',', '.', '(', ')', '[', ']', '\x7b', '\x7d', '<', '>', '"', '\'', '|', '#', '^']

def isBoundaryChar (c : Char) : Bool := isLayout c || boundaryMarks.contains c

/-- Whether a keyword, a number or a name may end before the rest of the text. -/
def atBoundary : List Char → Bool
  | [] => true
  | c :: _ => isBoundaryChar c

def occursIn (part : List Char) : List Char → Bool
  | [] => part.isEmpty
  | c :: rest => part.isPrefixOf (c :: rest) || occursIn part rest

def isOne (kind : Char → Bool) : List Char → Bool
  | [c] => kind c
  | _ => false

end Rdf.Text

namespace Rdf

inductive CharClass where
  | layout
  | digit
  | nameBase
  | nameStart
  | nameChar
  | hex
  | boundary
  deriving DecidableEq, Repr

namespace CharClass

open Text

def all : List CharClass := [layout, digit, nameBase, nameStart, nameChar, hex, boundary]

/-- Whether a text belongs to the class. A text of several characters is in the class of layout or
of boundaries when it is a stretch of the listing of the class; the empty text is a boundary, since
a name may end with the document. -/
def holds : CharClass → List Char → Bool
  | layout, text => !text.isEmpty && occursIn text Text.layout
  | digit, text => isOne isDigit text
  | nameBase, text => isOne isNameBase text
  | nameStart, text => isOne isNameStart text
  | nameChar, text => isOne isNameChar text
  | hex, text => isOne isHex text
  | boundary, text => text.isEmpty || occursIn text Text.layout || occursIn text boundaryMarks

end CharClass

end Rdf

import Rdf.Term.Basic
import Rdf.Token.Number

/-!
Which ids, labels and tags can be written.

A graph holds any text as the id of a blank node, as the label of a namespace or as a language tag.
Documents can name only those below.
-/

namespace Rdf

open Text

/-- Whether a text goes on as a label, in which dots may stand, and does not end with a dot. -/
def isLabelTail (text : List Char) : Bool :=
  text.all (fun c => c == '.' || isNameChar c) && text.getLast? != some '.'

/-- Whether an id can be written behind the mark of blank nodes. -/
def isBlankLabel : List Char → Bool
  | [] => false
  | c :: rest => (isNameStart c || isDigit c) && isLabelTail rest

/-- Whether a text can be written as the label of a namespace. -/
def isSpaceLabel : List Char → Bool
  | [] => true
  | c :: rest => isNameBase c && isLabelTail rest

/-- Whether a text can be written as a language tag. -/
def isLanguageTag (text : List Char) : Bool := Pattern.fits .languageTag text

end Rdf

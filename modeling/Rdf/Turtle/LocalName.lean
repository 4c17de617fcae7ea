import Rdf.Token.Name

/-!
Local parts of prefixed names.

A text is written as a local part by escaping the characters that need it. Some characters cannot
be escaped, so that not every text is a local part.
-/

namespace Rdf.Turtle

open Text

/-- One character of a local part, which is the first one, the last one, both or neither. -/
def localChar (isFirst isLast : Bool) (c : Char) : Option (List Char) :=
  if c = ':' then some [c]
  else if (if isFirst then isNameStart c || isDigit c else isNameChar c) then some [c]
  else if c = '.' ∧ !isFirst ∧ !isLast then some [c]
  else if Scan.localEscapes.contains c then some ['\\', c]
  else none

/-- The written form of the rest of a local part. A percent sign before two hexadecimal digits
stays as it is. -/
def escapeFrom (isFirst : Bool) : List Char → Option (List Char)
  | [] => some []
  | '%' :: high :: low :: rest =>
    if isHex high && isHex low then do
      return '%' :: high :: low :: (← escapeFrom false rest)
    else do
      let piece ← localChar isFirst false '%'
      return piece ++ (← escapeFrom false (high :: low :: rest))
  | c :: rest => do
    let piece ← localChar isFirst rest.isEmpty c
    return piece ++ (← escapeFrom false rest)

def escapeLocal (text : List Char) : Option (List Char) := escapeFrom true text

end Rdf.Turtle

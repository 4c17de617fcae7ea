import Rdf.Text.Printable
import Rdf.Text.Hex

/-!
Text in quotes, as messages show it: every character can be told from every other one, and a
message stays on one line.
-/

namespace Rdf.Text

/-- A text stands in single quotes unless it holds one and holds no double quote. -/
def quoteMark (text : List Char) : Char :=
  if text.contains '\'' && !text.contains '"' then '"' else '\''

/-- One character between quotes: the quote and the backslash are escaped, and a character without
a picture is given by its code point in the fewest of two, four or eight digits. -/
def quotedChar (quote c : Char) : List Char :=
  if c = quote || c = '\\' then ['\\', c]
  else if c = '\n' then ['\\', 'n']
  else if c = '\r' then ['\\', 'r']
  else if c = '\t' then ['\\', 't']
  else if isPrintable c then [c]
  else if c.toNat < 0x100 then '\\' :: 'x' :: hexDigits .lower 2 c.toNat
  else if c.toNat < 0x10000 then '\\' :: 'u' :: hexDigits .lower 4 c.toNat
  else '\\' :: 'U' :: hexDigits .lower 8 c.toNat

def quoted (text : String) : String :=
  let quote := quoteMark text.toList
  String.ofList (quote :: text.toList.flatMap (quotedChar quote) ++ [quote])

end Rdf.Text

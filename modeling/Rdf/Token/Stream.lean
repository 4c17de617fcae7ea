import Rdf.Text.Place
import Rdf.Token.Lexeme

/-!
The tokens of a document: its lexemes with the places they begin at.

`Token.scanAll` reads a whole text. Its tokens end with the one for the end of the text, unless a
fault cuts them short.
-/

namespace Rdf

structure Token where
  lexeme : Lexeme
  place : Place
  deriving DecidableEq, Repr

/-- A fault of a text at a place. -/
structure LexicalError where
  place : Place
  fault : LexicalFault
  deriving DecidableEq, Repr

/-- The tokens up to the end of a text or up to the first fault. -/
structure Tokens where
  tokens : List Token
  fault : Option LexicalError
  deriving DecidableEq, Repr

namespace Scan

/-- A text without the layout and the comments that it begins with. A comment goes from a number
sign to the end of its line. -/
def skipLayout (inComment : Bool) : List Char → List Char
  | [] => []
  | c :: rest =>
    if inComment then skipLayout (!endsLine c) rest
    else if Text.isLayout c then skipLayout false rest
    else if c = '#' then skipLayout true rest
    else c :: rest

theorem length_skipLayout (inComment : Bool) (text : List Char) :
    (skipLayout inComment text).length ≤ text.length := by
  induction text generalizing inComment with
  | nil => simp [skipLayout]
  | cons c rest ih =>
    simp only [skipLayout, List.length_cons]
    split
    · exact Nat.le_succ_of_le (ih _)
    · split
      · exact Nat.le_succ_of_le (ih _)
      · split
        · exact Nat.le_succ_of_le (ih _)
        · simp

end Scan

namespace Token

/-- The tokens of a text that begins at a place, behind a string or not. -/
def scanFrom (place : Place) (afterString : Bool) (text : List Char) : Tokens :=
  match _hrest : Scan.skipLayout false text with
  | [] => ⟨[⟨.eof, place.upTo text []⟩], none⟩
  | c :: rest =>
    let start := place.upTo text (c :: rest)
    match _hscan : Lexeme.scan afterString (c :: rest) with
    | .error fault => ⟨[], some ⟨start.upTo (c :: rest) fault.site, fault.cause⟩⟩
    | .ok (lexeme, left) =>
      let later := scanFrom (start.upTo (c :: rest) left) lexeme.isString left
      ⟨⟨lexeme, start⟩ :: later.tokens, later.fault⟩
termination_by text.length
decreasing_by
  have hskip := Scan.length_skipLayout false text
  rw [_hrest] at hskip
  exact Nat.lt_of_lt_of_le (Lexeme.length_scan _hscan) hskip

def scanAll (text : String) : Tokens := scanFrom .start false text.toList

end Token

end Rdf

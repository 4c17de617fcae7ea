import Rdf.Token.Stream

/-!
A cursor into a document, and single steps with it.

Each step gives an answer or a fault, and the cursor behind what it has read. What a failed step has
read stays read. A cursor may be set beyond the end of its document, where nothing is left, or
before its start: an index below zero counts from the end.
-/

namespace Rdf

/-- A document, the offset of the next character, and whether the last token was a string. -/
structure Cursor where
  text : List Char
  offset : Int := 0
  afterString : Bool := false
  deriving DecidableEq, Repr

namespace Cursor

/-- Why a step fails: by a fault of the document, because a number of no digits is asked for, or
because a name is asked for at an index that no character has. -/
inductive StepFault where
  | lexical (error : LexicalError)
  | noDigits
  | outside
  deriving DecidableEq, Repr

/-- The answer of a step and the cursor behind it. -/
abbrev Step (α : Type) : Type := Except StepFault α × Cursor

def noDigitsMessage : String := "invalid literal for int() with base 16: ''"

def outsideMessage : String := "string index out of range"

/-! ### Places -/

/-- The number of characters before an index, where one below zero counts from the end. -/
def before (cursor : Cursor) (index : Int) : Nat :=
  if index < 0 then (index + cursor.text.length).toNat else index.toNat

def slice (cursor : Cursor) (start stop : Int) : List Char :=
  (cursor.text.drop (cursor.before start)).take (cursor.before stop - cursor.before start)

/-- The text that is left. Before the start of the document it ends ahead of the last character. -/
def rest (cursor : Cursor) : List Char :=
  if 0 ≤ cursor.offset then cursor.text.drop cursor.offset.toNat
  else if cursor.offset + cursor.text.length < 0 then []
  else cursor.slice cursor.offset (-1)

def place (cursor : Cursor) (offset : Option Int) : Place :=
  Place.locate cursor.text (offset.getD cursor.offset)

def fail {α : Type} (cursor : Cursor) (fault : LexicalFault) (offset : Option Int) : Step α :=
  (.error (.lexical ⟨cursor.place offset, fault⟩), cursor)

def moveTo (cursor : Cursor) (offset : Int) : Cursor := { cursor with offset }

def offsetOf (cursor : Cursor) (left : List Char) : Int :=
  cursor.offset + (cursor.rest.length - left.length)

def run {α : Type} (cursor : Cursor) (scan : List Char → Scan α) : Step α :=
  match scan cursor.rest with
  | .ok (value, left) => (.ok value, cursor.moveTo (cursor.offsetOf left))
  | .error fault =>
    (.error (.lexical ⟨cursor.place (some (cursor.offsetOf fault.site)), fault.cause⟩),
      cursor.moveTo (cursor.offsetOf fault.stop))

/-! ### Steps -/

/-- The character some way ahead, as a text that is empty where there is none. -/
def peek (cursor : Cursor) (ahead : Int) : List Char :=
  cursor.slice (cursor.offset + ahead) (cursor.offset + ahead + 1)

/-- Whether the document goes on with a text. Beyond its end it does not go on at all. -/
def lookingAt (cursor : Cursor) (literal : List Char) : Bool :=
  cursor.offset ≤ cursor.text.length
    && literal.isPrefixOf (cursor.text.drop (cursor.before cursor.offset))

/-- Reads a number of characters, or goes back by them where the number is below zero. -/
def take (cursor : Cursor) (count : Int) : Step (List Char) :=
  let stop := cursor.offset + count
  if cursor.text.length < stop then cursor.fail .endOfInput none
  else (.ok (cursor.slice cursor.offset stop), cursor.moveTo stop)

/-- Reads a text if it comes next, and tells whether it did. -/
def takeIf (cursor : Cursor) (literal : List Char) : Step Bool :=
  if cursor.lookingAt literal then (.ok true, cursor.moveTo (cursor.offset + literal.length))
  else (.ok false, cursor)

def require (cursor : Cursor) (literal : List Char) (message : Option String) : Step Unit :=
  if cursor.lookingAt literal then (.ok (), cursor.moveTo (cursor.offset + literal.length))
  else cursor.fail (match message with
    | some text => .told text
    | none => .expected (String.ofList literal)) none

def hexNumber (cursor : Cursor) (count : Int) (what : String) : Step Nat :=
  if count = 0 then (.error .noDigits, cursor)
  else if count < 0 then cursor.fail (.hexDigits what) none
  else cursor.run (Scan.hexNumber count.toNat what)

def matching (cursor : Cursor) (pattern : Pattern) : Option (List Char) :=
  (pattern (cursor.text.drop cursor.offset.toNat)).map (·.1)

def skip (cursor : Cursor) : Cursor :=
  cursor.moveTo (cursor.offsetOf (Scan.skipLayout false cursor.rest))

/-- Reads the rest of a name of accepted characters and dots, of which some characters are known
already, and gives what is behind those. A name that begins before the start of the document goes on
at its start. -/
def dottedBy (cursor : Cursor) (accept : Char → Bool) (known : Int) : Step (List Char) :=
  let start := cursor.offset + known
  if start + cursor.text.length < 0 then (.error .outside, cursor)
  else
    let ahead := if start < 0 then cursor.text.drop (cursor.before start) else []
    let (name, _) := Scan.dotted accept (ahead ++ cursor.text.drop start.toNat)
    let stop := start + name.length
    (.ok (cursor.slice start stop), cursor.moveTo stop)

/-- Reads the rest of a label of which some characters are known already. -/
def dotted (cursor : Cursor) (known : Int) : Step (List Char) :=
  cursor.dottedBy Text.isNameChar known

end Cursor

end Rdf

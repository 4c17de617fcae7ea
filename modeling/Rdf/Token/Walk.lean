import Rdf.Token.Cursor

/-!
Reading with a cursor.

From the start of a document on, a cursor reads as the scanners do. Before the start, where an index
counts from the end, it walks by single steps, each of which looks at the document anew: a character
ahead, a literal that comes next, or a stretch between two indices. The character at the index just
below zero cannot be seen ahead, though a literal may begin with it.
-/

namespace Rdf

/-- A walk of a cursor, which may fail and leaves the cursor where it stopped. -/
abbrev Walk : Type → Type := ExceptT Cursor.StepFault (StateM Cursor)

namespace Walk

open Text Scan

/-! ### Steps -/

def ofStep {α : Type} (step : Cursor → Cursor.Step α) : Walk α := ExceptT.mk step

/-- Fails at an offset, or where the walk is. -/
def fail {α : Type} (fault : LexicalFault) (offset : Option Int) : Walk α :=
  ofStep (·.fail fault offset)

def position : Walk Int := return (← get).offset

def peek (ahead : Int) : Walk (List Char) := return (← get).peek ahead

def lookingAt (literal : List Char) : Walk Bool := return (← get).lookingAt literal

def moveBy (count : Int) : Walk Unit := modify fun cursor => cursor.moveTo (cursor.offset + count)

def take (count : Int) : Walk (List Char) := ofStep (·.take count)

def takeIf (literal : List Char) : Walk Bool := ofStep (·.takeIf literal)

def hexNumber (count : Int) (what : String) : Walk Nat := ofStep (·.hexNumber count what)

def dotted (known : Int) : Walk (List Char) := ofStep (·.dotted known)

def require (literal : List Char) (fault : LexicalFault) : Walk Unit := do
  if !(← takeIf literal) then
    fail fault none

/-- Reads pieces of text until a step gives none, at most `bound` of them. -/
def gather (step : Walk (Option (List Char))) : Nat → Walk (List Char)
  | 0 => return []
  | bound + 1 => do
    match ← step with
    | some piece => return piece ++ (← gather step bound)
    | none => return []

/-- Reads pieces of text until a step gives none. Each piece takes a character that is there, so
that there are no more pieces than there are indices before the end of the document. -/
def gatherAll (step : Walk (Option (List Char))) : Walk (List Char) := do
  let cursor ← get
  gather step ((cursor.text.length - cursor.offset).toNat + 1)

/-! ### Escapes -/

/-- Reads the second half of a surrogate pair, whose first half has been read. -/
def lowHalf (high : Nat) : Walk Char := do
  if !(← takeIf ['\\', 'u']) then
    fail .loneSurrogate none
  let low ← hexNumber 4 "\\u"
  if isLowSurrogate low then return Char.ofNat (joinSurrogates high low)
  else fail .lowSurrogate none

def unicodeEscape : Walk Char := do
  if ← takeIf ['\\', 'U'] then
    let n ← hexNumber 8 "\\U"
    if 0x10FFFF < n || isHighSurrogate n || isLowSurrogate n then fail .codePointRange none
    else return Char.ofNat n
  else
    require ['\\', 'u'] .unicodeEscape
    let n ← hexNumber 4 "\\u"
    if isLowSurrogate n then fail .loneSurrogate none
    else if isHighSurrogate n then lowHalf n
    else return Char.ofNat n

/-- Reads an escape of a string, which begins with any one character. -/
def stringEscape : Walk Char := do
  let ahead ← peek 1
  if ahead.any isEscapeLetter then unicodeEscape
  else match ahead.head?.bind escapedChar? with
    | some c => do
      moveBy 2
      return c
    | none => fail .stringEscape (some ((← position) + 1))

/-! ### Identifiers and strings -/

def iriPiece (opening : Int) : Walk (Option (List Char)) := do
  match ← peek 0 with
  | [] => fail .iriUnterminated (some opening)
  | c :: _ =>
    if endsLine c then fail .iriUnterminated (some opening)
    else if c = '>' then
      moveBy 1
      return none
    else if c = '\\' then
      if (← peek 1).any isEscapeLetter then return some [← unicodeEscape]
      else fail .iriEscape none
    else if iriForbids c then fail (.iriCharacter c) none
    else return some (← take 1)

def iriRef : Walk (List Char) := do
  let opening ← position
  require ['<'] (.expected "<")
  gatherAll (iriPiece opening)

def stringPiece (opening : Int) (quote delimiter : List Char) : Walk (Option (List Char)) := do
  let isLong := delimiter.length == 3
  match ← peek 0 with
  | [] => fail .stringUnterminated (some opening)
  | c :: _ =>
    if !isLong && endsLine c then fail .stringUnterminated (some opening)
    else if c = '\\' then return some [← stringEscape]
    else if (← lookingAt delimiter) && !(isLong && (← peek 3) == quote) then
      moveBy delimiter.length
      return none
    else return some (← take 1)

/-- Reads a string, whose first character is its quote, and gives the quotes with the value. -/
def quotation : Walk (List Char × List Char) := do
  let opening ← position
  let quote ← peek 0
  let long := quote ++ quote ++ quote
  let delimiter := if ← lookingAt long then long else quote
  moveBy delimiter.length
  return (delimiter, ← gatherAll (stringPiece opening quote delimiter))

/-! ### Names -/

/-- Reads the label of a blank node and the two characters before it, whatever they are. -/
def blankLabel : Walk (List Char) := do
  moveBy 2
  let first ← peek 0
  if first.any fun c => isNameStart c || isDigit c then return first ++ (← dotted 1)
  else fail .blankLabel none

/-- Reads a percent sign, or whatever stands in its place, and two hexadecimal digits. -/
def percentEscape : Walk (List Char) := do
  if (← peek 1).any isHex && (← peek 2).any isHex then take 3
  else fail .percentEscape none

/-- Reads a backslash, or whatever stands in its place, and gives the character behind it. -/
def localEscape : Walk Char := do
  match (← peek 1).filter localEscapes.contains with
  | escaped :: _ =>
    moveBy 2
    return escaped
  | [] => fail .localEscape none

def localPiece : Walk (Option (List Char)) := do
  match ← peek 0 with
  | [] => return none
  | c :: _ =>
    if c = '%' then return some (← percentEscape)
    else if c = '\\' then return some [← localEscape]
    else if c = ':' ∨ isNameChar c then return some (← take 1)
    else if c = '.' ∧ dotsLeadOn (← get).rest then return some (← take 1)
    else return none

def localPart : Walk (List Char) := do
  if startsLocal (← peek 0) then gatherAll localPiece else fail .localName none

/-! ### Lexemes -/

/-- Reads the word behind an at sign. A word is looked for from the start of the document on. -/
def atWord (opening : Int) : Walk Lexeme := do
  moveBy 1
  let cursor ← get
  match Pattern.languageTag (cursor.text.drop cursor.offset.toNat) with
  | none => fail .atWord none
  | some (word, left) =>
    let text := String.ofList word
    if cursor.afterString then
      set (cursor.moveTo (cursor.text.length - left.length))
      return .languageTag text
    else if text ≠ "prefix" ∧ text ≠ "base" then fail (.unknownDirective text) (some opening)
    else
      let behind ← peek word.length
      if !atBoundary behind && behind ≠ [':'] then
        fail (.malformedDirective text) none
      moveBy word.length
      let declares := if text = "prefix" then Declares.label else .base
      return .directive ⟨declares, "@" ++ text, true⟩

/-- Reads a number, which is looked for from the start of the document on. -/
def number : Walk Lexeme := do
  let cursor ← get
  match Lexeme.scanNumber (cursor.text.drop cursor.offset.toNat) with
  | .ok (lexeme, left) =>
    set (cursor.moveTo (cursor.text.length - left.length))
    return lexeme
  | .error _ => fail .number none

def name (opening : Int) : Walk Lexeme := do
  let label ← if (← peek 0).any isNameBase then dotted 0 else pure []
  if ← takeIf [':'] then
    let value ← if atBoundary (← peek 0) then pure [] else localPart
    return .name (String.ofList label) (String.ofList value)
  else match Lexeme.keyword? label with
    | some lexeme => return lexeme
    | none => fail (.unknownName (String.ofList label)) (some opening)

def lexeme : Walk Lexeme := do
  let opening ← position
  match ← peek 0 with
  | [] => return .eof
  | c :: _ =>
    let ahead ← peek 1
    if c = '<' then return .iri (String.ofList (← iriRef))
    else if c = '"' ∨ c = '\'' then
      let (delimiter, value) ← quotation
      return .string (String.ofList delimiter) (String.ofList value)
    else if c = '@' then atWord opening
    else if c = '^' then
      require ['^', '^'] .datatypeMark
      return .datatypeMark
    else if c = '_' ∧ ahead = [':'] then return .blank (String.ofList (← blankLabel))
    else if Lexeme.startsNumber (c :: ahead) then number
    else match Punct.ofChar? c with
      | some mark => do
        moveBy 1
        return .punct mark
      | none => if c = ':' ∨ isNameBase c then name opening else fail (.unexpected c) none

end Walk

namespace Cursor

def walk {α : Type} (cursor : Cursor) (walk : Walk α) : Step α := walk.run.run cursor

/-- Reads by a scanner from the start of the document on, and by a walk before it. -/
def read {α : Type} (cursor : Cursor) (scan : List Char → Scan α) (walk : Walk α) : Step α :=
  if 0 ≤ cursor.offset then cursor.run scan else cursor.walk walk

theorem read_of_nonneg {α : Type} {cursor : Cursor} (h : 0 ≤ cursor.offset)
    (scan : List Char → Scan α) (walk : Walk α) : cursor.read scan walk = cursor.run scan :=
  if_pos h

def unicodeEscape (cursor : Cursor) : Step Char :=
  cursor.read Scan.unicodeEscape Walk.unicodeEscape

/-- Reads an escape of a string. Where the document has ended already, the fault is behind it. -/
def stringEscape (cursor : Cursor) : Step Char :=
  if cursor.text.length ≤ cursor.offset then
    cursor.fail .stringEscape (some (cursor.offset + 1))
  else cursor.read Scan.stringEscape Walk.stringEscape

def iriRef (cursor : Cursor) : Step (List Char) := cursor.read Scan.iriRef Walk.iriRef

def quotation (cursor : Cursor) : Step (List Char × List Char) :=
  cursor.read Scan.quotation Walk.quotation

def blankLabel (cursor : Cursor) : Step (List Char) :=
  if 0 ≤ cursor.offset then (cursor.moveTo (cursor.offset + 2)).run Scan.blankLabel
  else cursor.walk Walk.blankLabel

def localPart (cursor : Cursor) : Step (List Char) := cursor.read Scan.localPart Walk.localPart

def percentEscape (cursor : Cursor) : Step (List Char) :=
  cursor.read Scan.percentEscape Walk.percentEscape

def localEscape (cursor : Cursor) : Step Char := cursor.read Scan.localEscape Walk.localEscape

def dotsLeadOn (cursor : Cursor) : Bool := Scan.dotsLeadOn cursor.rest

/-- Reads the next token, which is the end of the text where nothing is left. -/
def next (cursor : Cursor) : Step Token :=
  let start := cursor.skip
  match start.read (Lexeme.scan cursor.afterString) Walk.lexeme with
  | (.ok lexeme, behind) =>
    (.ok ⟨lexeme, start.place none⟩, { behind with afterString := lexeme.isString })
  | (.error error, behind) => (.error error, behind)

end Cursor

end Rdf

import Rdf.Text.Layout
import Rdf.Token.Name
import Rdf.Token.Number
import Rdf.Token.Quotation

/-!
Lexemes: the smallest parts of a document that mean something.

`Lexeme.scan` reads the lexeme at the start of a text. A word behind an at sign is a language tag
where a string comes before it, and else a directive.
-/

namespace Rdf

inductive Punct where
  | dot
  | semicolon
  | comma
  | openBracket
  | closeBracket
  | openParen
  | closeParen
  deriving DecidableEq, Repr

namespace Punct

def toChar : Punct → Char
  | dot => '.'
  | semicolon => ';'
  | comma => ','
  | openBracket => '['
  | closeBracket => ']'
  | openParen => '('
  | closeParen => ')'

def ofChar? : Char → Option Punct
  | '.' => some dot
  | ';' => some semicolon
  | ',' => some comma
  | '[' => some openBracket
  | ']' => some closeBracket
  | '(' => some openParen
  | ')' => some closeParen
  | _ => none

theorem ofChar?_toChar (p : Punct) : ofChar? p.toChar = some p := by cases p <;> rfl

end Punct

inductive Declares where
  | label
  | base
  deriving DecidableEq, Repr

/-- The word that opens a directive, as it is written. A directive opened by a word with an at sign
ends with a dot. -/
structure Directive where
  declares : Declares
  word : String
  isDotted : Bool
  deriving DecidableEq, Repr

inductive Lexeme where
  | iri (value : String)
  | name (label localPart : String)
  | blank (label : String)
  | string (delimiter value : String)
  | languageTag (tag : String)
  | datatypeMark
  | number (kind : NumberKind) (text : String)
  | boolean (text : String)
  | a
  | directive (directive : Directive)
  | punct (mark : Punct)
  | eof
  deriving DecidableEq, Repr

namespace Lexeme

def value : Lexeme → String
  | iri value => value
  | name _ localPart => localPart
  | blank label => label
  | string _ value => value
  | languageTag tag => tag
  | datatypeMark => "^^"
  | number _ text => text
  | boolean text => text
  | a => "a"
  | directive opening => opening.word
  | punct mark => String.singleton mark.toChar
  | eof => ""

def describe : Lexeme → String
  | eof => "end of input"
  | name label localPart => "'" ++ label ++ ":" ++ localPart ++ "'"
  | iri value => "<" ++ value ++ ">"
  | string _ value => "string " ++ Text.quoted value
  | blank label => "'_:" ++ label ++ "'"
  | other => "'" ++ other.value ++ "'"

def isString : Lexeme → Bool
  | string _ _ => true
  | _ => false

/-! ### Reading one lexeme -/

open Text Scan

def scanAtWord (afterString : Bool) (rest : List Char) : Scan Lexeme :=
  match Pattern.languageTag rest with
  | none => fail .atWord rest
  | some (word, left) =>
    let text := String.ofList word
    if afterString then .ok (languageTag text, left)
    else if text ≠ "prefix" ∧ text ≠ "base" then
      .error ⟨.unknownDirective text, '@' :: rest, rest⟩
    else if !atBoundary left && left.head? ≠ some ':' then
      fail (.malformedDirective text) rest
    else
      let declares := if text = "prefix" then Declares.label else .base
      .ok (directive ⟨declares, "@" ++ text, true⟩, left)

/-- The number in a notation, if it ends where a number may end. -/
def scanNumberAs (kind : NumberKind) (text : List Char) : Option (Lexeme × List Char) :=
  match Pattern.ofKind kind text with
  | some (taken, rest) =>
    if atBoundary rest then some (number kind (String.ofList taken), rest) else none
  | none => none

/-- Reads a number, in the richest notation that it has. -/
def scanNumber (text : List Char) : Scan Lexeme :=
  match [NumberKind.double, .decimal, .integer].findSome? fun kind => scanNumberAs kind text with
  | some found => .ok found
  | none => fail .number text

/-- The word that a label without a colon may be. -/
def keyword? (label : List Char) : Option Lexeme :=
  let text := String.ofList label
  if text = "a" then some a
  else if text = "true" ∨ text = "false" then some (boolean text)
  else match String.ofList (upperCase label) with
    | "PREFIX" => some (directive ⟨.label, text, false⟩)
    | "BASE" => some (directive ⟨.base, text, false⟩)
    | _ => none

/-- The label at the start of a text, which may be empty, and the rest. -/
def scanLabel (text : List Char) : List Char × List Char :=
  if text.head?.any isNameBase then dotted isNameChar text else ([], text)

def scanName (text : List Char) : Scan Lexeme :=
  let (label, rest) := scanLabel text
  match rest with
  | ':' :: rest =>
    if atBoundary rest then .ok (name (String.ofList label) "", rest)
    else match Scan.localPart rest with
      | .error fault => .error fault
      | .ok (value, left) => .ok (name (String.ofList label) (String.ofList value), left)
  | _ =>
    match keyword? label with
    | some lexeme => .ok (lexeme, rest)
    | none => .error ⟨.unknownName (String.ofList label), text, rest⟩

def startsNumber : List Char → Bool
  | [] => false
  | c :: rest => isDigit c || c == '+' || c == '-' || (c == '.' && rest.head?.any isDigit)

/-- Reads the lexeme at the start of a text, which does not begin with layout. -/
def scan (afterString : Bool) (text : List Char) : Scan Lexeme :=
  match text with
  | [] => .ok (eof, [])
  | c :: rest =>
    if c = '<' then
      match iriRef text with
      | .error fault => .error fault
      | .ok (value, left) => .ok (iri (String.ofList value), left)
    else if c = '"' ∨ c = '\'' then
      match quotation text with
      | .error fault => .error fault
      | .ok ((delimiter, value), left) =>
        .ok (string (String.ofList delimiter) (String.ofList value), left)
    else if c = '@' then scanAtWord afterString rest
    else if c = '^' then
      match rest with
      | '^' :: left => .ok (datatypeMark, left)
      | _ => fail .datatypeMark text
    else if c = '_' ∧ rest.head? = some ':' then
      match blankLabel rest.tail with
      | .error fault => .error fault
      | .ok (label, left) => .ok (blank (String.ofList label), left)
    else if startsNumber text then scanNumber text
    else match Punct.ofChar? c with
      | some mark => .ok (punct mark, rest)
      | none =>
        if c = ':' ∨ isNameBase c then scanName text else fail (.unexpected c) text

/-! ### Progress -/

theorem length_scanAtWord {afterString : Bool} {rest left : List Char} {lexeme : Lexeme}
    (h : scanAtWord afterString rest = .ok (lexeme, left)) : left.length ≤ rest.length := by
  simp only [scanAtWord, fail] at h
  split at h
  · simp at h
  · next hp =>
    have hl := Pattern.exact_languageTag.length_le hp
    repeat' split at h
    all_goals simp at h
    all_goals rw [← h.2]
    all_goals exact hl

theorem length_scanNumber {text left : List Char} {lexeme : Lexeme}
    (h : scanNumber text = .ok (lexeme, left)) : left.length < text.length := by
  unfold scanNumber at h
  split at h
  · next hf =>
    simp only [Except.ok.injEq] at h
    subst h
    obtain ⟨kind, _, hk⟩ := List.exists_of_findSome?_eq_some hf
    unfold scanNumberAs at hk
    split at hk
    · next hp =>
      split at hk
      · simp only [Option.some.injEq, Prod.mk.injEq] at hk
        rw [← hk.2]
        exact (Pattern.exact_ofKind kind).length_lt (Pattern.proper_ofKind kind) hp
      · simp at hk
    · simp at hk
  · simp [fail] at h

theorem scanLabel_append (text : List Char) : (scanLabel text).1 ++ (scanLabel text).2 = text := by
  unfold scanLabel
  split
  · exact dotted_append _ _
  · rfl

theorem length_scanName {c : Char} {rest left : List Char} {lexeme : Lexeme}
    (hc : c = ':' ∨ isNameBase c = true) (h : scanName (c :: rest) = .ok (lexeme, left)) :
    left.length < (c :: rest).length := by
  have hl := congrArg List.length (scanLabel_append (c :: rest))
  rw [List.length_append] at hl
  unfold scanName at h
  split at h
  next label rest' hs =>
  rw [hs] at hl
  dsimp only at hl
  split at h
  · next tail =>
    simp only [List.length_cons] at hl ⊢
    split at h
    · simp only [Except.ok.injEq, Prod.mk.injEq] at h
      rw [← h.2]
      omega
    · split at h
      · simp at h
      · next hp =>
        have := length_localPart hp
        simp only [Except.ok.injEq, Prod.mk.injEq] at h
        rw [← h.2]
        omega
  · next hcolon =>
    have hlabel : label ≠ [] := by
      rintro rfl
      unfold scanLabel at hs
      obtain rfl | hc := hc
      · have hb : isNameBase ':' = false := by decide
        simp [hb] at hs
        exact hcolon rest hs.symm
      · have hn : isNameChar c = true := by simp [isNameChar, isNameStart, hc]
        simp [hc, dotted, hn] at hs
    have hpos := List.length_pos_iff.2 hlabel
    split at h
    · simp only [Except.ok.injEq, Prod.mk.injEq] at h
      rw [← h.2]
      omega
    · simp at h

/-- Every lexeme but the last takes something of the text. -/
theorem length_scan {afterString : Bool} {c : Char} {rest left : List Char} {lexeme : Lexeme}
    (h : scan afterString (c :: rest) = .ok (lexeme, left)) :
    left.length < (c :: rest).length := by
  simp only [scan] at h
  split at h
  · split at h
    · simp at h
    · next hi =>
      simp only [Except.ok.injEq, Prod.mk.injEq] at h
      rw [← h.2]
      exact length_iriRef hi
  split at h
  · split at h
    · simp at h
    · next hq =>
      simp only [Except.ok.injEq, Prod.mk.injEq] at h
      rw [← h.2]
      exact length_quotation hq
  split at h
  · have := length_scanAtWord h
    simp only [List.length_cons]
    omega
  split at h
  · split at h
    · simp only [Except.ok.injEq, Prod.mk.injEq] at h
      rw [← h.2]
      simp only [List.length_cons]
      omega
    · simp [fail] at h
  split at h
  · split at h
    · simp at h
    · next hb =>
      have := length_blankLabel hb
      simp only [Except.ok.injEq, Prod.mk.injEq] at h
      rw [← h.2, List.length_cons]
      rw [List.length_tail] at this
      omega
  split at h
  · exact length_scanNumber h
  split at h
  · simp only [Except.ok.injEq, Prod.mk.injEq] at h
    simp [← h.2]
  split at h
  · next hn => exact length_scanName hn h
  · simp [fail] at h

end Lexeme

end Rdf

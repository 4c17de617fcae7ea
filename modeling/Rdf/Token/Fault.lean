import Rdf.Text.Quoted
import Rdf.Text.Utf8

/-!
What can be wrong with a text before its tokens are looked at.
-/

namespace Rdf

inductive LexicalFault where
  | endOfInput
  | expected (literal : String)
  | told (message : String)
  | hexDigits (what : String)
  | codePointRange
  | unicodeEscape
  | loneSurrogate
  | lowSurrogate
  | stringEscape
  | iriUnterminated
  | iriEscape
  | iriCharacter (c : Char)
  | stringUnterminated
  | atWord
  | unknownDirective (word : String)
  | malformedDirective (word : String)
  | datatypeMark
  | blankLabel
  | number
  | unknownName (label : String)
  | localName
  | percentEscape
  | localEscape
  | unexpected (c : Char)
  | notUtf8 (fault : Utf8.Fault)
  deriving DecidableEq, Repr

namespace LexicalFault

def shown (c : Char) : String := Text.quoted (String.singleton c)

def message : LexicalFault → String
  | endOfInput => "unexpected end of input"
  | expected literal => "expected '" ++ literal ++ "'"
  | told message => message
  | hexDigits what => "invalid " ++ what ++ " escape"
  | codePointRange => "code point out of range"
  | unicodeEscape => "expected unicode escape"
  | loneSurrogate => "lone surrogate is not allowed"
  | lowSurrogate => "invalid low surrogate in pair"
  | stringEscape => "invalid escape sequence"
  | iriUnterminated => "unterminated IRI"
  | iriEscape => "invalid escape in IRI"
  | iriCharacter c => "invalid character " ++ shown c ++ " in IRI"
  | stringUnterminated => "unterminated string"
  | atWord => "expected language tag or directive after '@'"
  | unknownDirective word => "unknown directive '@" ++ word ++ "'"
  | malformedDirective word => "malformed directive '@" ++ word ++ "'"
  | datatypeMark => "expected '^^' before datatype"
  | blankLabel => "invalid blank node label"
  | number => "invalid numeric literal"
  | unknownName label => "unexpected name '" ++ label ++ "' (missing prefix?)"
  | localName => "invalid local name"
  | percentEscape => "invalid percent escape"
  | localEscape => "invalid local name escape"
  | unexpected c => "unexpected character " ++ shown c
  | notUtf8 fault => "input is not valid UTF-8: " ++ fault.message

end LexicalFault

end Rdf

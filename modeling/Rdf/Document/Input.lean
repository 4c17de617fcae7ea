import Rdf.Document.Error

/-!
Documents as they come from a stream.

A stream gives text or the bytes of UTF-8. One byte order mark at its start is not part of the
document.
-/

namespace Rdf.Document

/-- What a stream gives when it is read to its end. -/
inductive Content where
  | text (text : String)
  | bytes (bytes : List UInt8)
  deriving DecidableEq, Repr

/-- Names that stand for no name: the empty text and zero. -/
def isNoName (name : SourceName) : Bool := name = .text "" || name = .number 0

/-- The name of the source that errors speak of: the one asked for, or that of the stream. -/
def sourceName (source stream : Option SourceName) : SourceName :=
  source.getD ((stream.filter (!isNoName ·)).getD (.text "<stream>"))

/-- The character that a byte order mark decodes to. -/
def markChar : Char := '\ufeff'

/-- A text without one leading byte order mark. -/
def dropMark : List Char → List Char
  | c :: rest => if c = markChar then rest else c :: rest
  | [] => []

def decode (source : SourceName) : Content → Except ReadFailure String
  | .text text => .ok (String.ofList (dropMark text.toList))
  | .bytes bytes =>
    match Utf8.decode (Utf8.dropMark bytes) with
    | .ok text => .ok (String.ofList text)
    | .error fault => .error (.ofLexical source ⟨.start, .notUtf8 fault⟩)

end Rdf.Document

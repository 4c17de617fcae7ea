import Rdf.Iri.Path
import Rdf.Text.Hex

/-!
Paths of files.

A path is its parts, of which those of one dot are left out. Two dots are kept: what they mean for
a file depends on the directories before them.
-/

namespace Rdf.Command

/-- A path. `root` holds the slashes that a rooted path begins with; it is empty for a path from
the working directory. -/
structure Path where
  root : String
  parts : List String
  deriving DecidableEq, Repr

namespace Path

/-- The root of a text. Two slashes are a root of their own; more of them are one. -/
def rootOf (text : List Char) : String :=
  match (text.takeWhile (· == '/')).length with
  | 0 => ""
  | 2 => "//"
  | _ => "/"

def ofText (text : String) : Path :=
  let parts := (Rdf.Path.segments text.toList).map String.ofList
  ⟨rootOf text.toList, parts.filter fun part => part ≠ "" && part ≠ "."⟩

def toText (path : Path) : String :=
  if path.root = "" ∧ path.parts = [] then "." else path.root ++ "/".intercalate path.parts

/-- The ending of a name, from its last dot on. A dot at either end of the name begins none. -/
def ending (name : List Char) : List Char :=
  let behind := name.reverse.takeWhile (· != '.')
  let before := name.length - behind.length
  if behind.isEmpty || before ≤ 1 then [] else '.' :: behind.reverse

def suffix (path : Path) : List Char := ending (path.parts.getLast?.getD "").toList

/-- The directories that a row of parts leads to, the last one first, where two dots take back the
part before them. -/
def descend (location : List String) : List String → List String
  | [] => location
  | part :: rest =>
    if part = ".." then descend location.tail rest else descend (part :: location) rest

/-- The parts of a path from the root on, seen from a working directory. -/
def absolute (directory : List String) (path : Path) : List String :=
  (descend (if path.root = "" then directory.reverse else []) path.parts).reverse

/-- Bytes that stand in an identifier as they are. -/
def isPlainByte (n : Nat) : Bool :=
  (0x41 ≤ n && n ≤ 0x5A) || (0x61 ≤ n && n ≤ 0x7A) || (0x30 ≤ n && n ≤ 0x39)
    || n == '_'.toNat || n == '.'.toNat || n == '-'.toNat || n == '~'.toNat || n == '/'.toNat

def percentByte (byte : UInt8) : List Char :=
  if isPlainByte byte.toNat then [Char.ofNat byte.toNat]
  else '%' :: Text.hexDigits .upper 2 byte.toNat

def toIri (directory : List String) (path : Path) : String :=
  let text := "/" ++ "/".intercalate (path.absolute directory)
  "file://" ++ String.ofList (text.toUTF8.toList.flatMap percentByte)

end Path

end Rdf.Command

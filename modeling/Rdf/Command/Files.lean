import Rdf.Command.Path
import Rdf.Text.Quoted

/-!
Files and directories, and what a command may do with them.

`System` is what a command needs of the machine that it runs on; `FileTree` is a machine whose
files are a value.
-/

namespace Rdf.Command

/-- Why a file cannot be read or written. -/
inductive FileFlaw where
  | missing
  | notDirectory
  | isDirectory
  | longName
  | nullByte
  | other (message : String)
  deriving DecidableEq, Repr

/-- A flaw of the file at a path. -/
structure FileFault where
  path : Path
  flaw : FileFlaw
  deriving DecidableEq, Repr

def FileFault.message (fault : FileFault) : String :=
  let named := fun text => text ++ ": " ++ Text.quoted fault.path.toText
  match fault.flaw with
  | .missing => named "[Errno 2] No such file or directory"
  | .notDirectory => named "[Errno 20] Not a directory"
  | .isDirectory => named "[Errno 21] Is a directory"
  | .longName => named "[Errno 36] File name too long"
  | .nullByte => "embedded null byte"
  | .other message => named message

/-- What a command needs of its surroundings. -/
structure System (m : Type → Type) where
  /-- The parts of the working directory. -/
  directory : m (List String)
  /-- The bytes of standard input. -/
  input : m (List UInt8)
  readFile : Path → m (Except FileFault (List UInt8))
  /-- Writes a file, or leaves everything as it was. -/
  writeFile : Path → String → m (Except FileFault Unit)

/-- A tree of files. Places in it are the parts of rooted paths. -/
structure FileTree where
  workingDirectory : List String
  directories : List (List String)
  files : List (List String × List UInt8)
  input : List UInt8
  deriving DecidableEq, Repr

namespace FileTree

/-- A place and all places on the way to it. -/
def onTheWay (place : List String) : List (List String) :=
  (List.range (place.length + 1)).map place.take

/-- The tree with the given directories and files, and the directories on the way to them. -/
def ofEntries (workingDirectory : List String) (directories : List (List String))
    (files : List (List String × List UInt8)) (input : List UInt8) : FileTree :=
  let inner := workingDirectory :: directories ++ files.map (·.1.dropLast)
  { workingDirectory, files, input, directories := inner.flatMap onTheWay }

def isDirectory (tree : FileTree) (place : List String) : Bool := tree.directories.contains place

/-- The bytes that a part of a path may have. -/
def maxPart : Nat := 255

def maxPath : Nat := 4095

/-- Whether a part of a path is too long for the name of a file. -/
def isLong (part : String) : Bool := maxPart < part.utf8ByteSize

/-- The place of a path that should lead to a directory. -/
def enter (tree : FileTree) (place : List String) : List String → Except FileFlaw (List String)
  | [] => .ok place
  | part :: rest =>
    if part = ".." then enter tree place.dropLast rest
    else if isLong part then .error .longName
    else
      let inner := place ++ [part]
      if tree.isDirectory inner then enter tree inner rest
      else if (tree.files.lookup inner).isSome then .error .notDirectory
      else .error .missing

def pathFlaw? (path : Path) : Option FileFlaw :=
  if path.toText.toList.contains '\x00' then some .nullByte
  else if maxPath < path.toText.utf8ByteSize then some .longName
  else none

/-- The place of a path that should lead to a file, in a directory that is there. -/
def placeOf (tree : FileTree) (path : Path) : Except FileFlaw (List String) := do
  if let some flaw := pathFlaw? path then
    .error flaw
  let start := if path.root = "" then tree.workingDirectory else []
  let place ← tree.enter start path.parts.dropLast
  match path.parts.getLast? with
  | none => .error .isDirectory
  | some part =>
    if part = ".." then .error .isDirectory
    else if isLong part then .error .longName
    else if tree.isDirectory (place ++ [part]) then .error .isDirectory
    else .ok (place ++ [part])

def read (tree : FileTree) (path : Path) : Except FileFault (List UInt8) :=
  match tree.placeOf path with
  | .error flaw => .error ⟨path, flaw⟩
  | .ok place =>
    match tree.files.lookup place with
    | some bytes => .ok bytes
    | none => .error ⟨path, .missing⟩

def setFile (place : List String) (bytes : List UInt8) :
    List (List String × List UInt8) → List (List String × List UInt8)
  | [] => [(place, bytes)]
  | entry :: rest =>
    if entry.1 = place then (place, bytes) :: rest else entry :: setFile place bytes rest

def write (tree : FileTree) (path : Path) (text : String) : Except FileFault FileTree :=
  match tree.placeOf path with
  | .error flaw => .error ⟨path, flaw⟩
  | .ok place => .ok { tree with files := setFile place text.toUTF8.toList tree.files }

/-- The files that are not as they were in an earlier tree. -/
def changedSince (tree earlier : FileTree) : List (List String × List UInt8) :=
  tree.files.filter fun entry => earlier.files.lookup entry.1 ≠ some entry.2

def system : System (StateM FileTree) where
  directory := return (← get).workingDirectory
  input := return (← get).input
  readFile path := return (← get).read path
  writeFile path text := do
    match (← get).write path text with
    | .error fault => return .error fault
    | .ok tree =>
      set tree
      return .ok ()

end FileTree

end Rdf.Command

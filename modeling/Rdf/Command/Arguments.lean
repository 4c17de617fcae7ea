import Rdf.Command.Format
import Rdf.Text.Decimal

/-!
The arguments of the command line.

Arguments are sorted into operands and options first, and then read from left to right. A run of
operands fills as many of the two places for paths as it can, and a place that a run has passed is
not filled by a later one.
-/

namespace Rdf.Command

inductive Opt where
  | help
  | source
  | target
  | base
  | lists
  | noLabels
  | noBase
  | validateOnly
  | statistics
  | verbose
  | version
  deriving DecidableEq, Repr

namespace Opt

/-- The spellings of the options, in the order in which messages list them. -/
def spellings : List (String × Opt) :=
  [("-h", help), ("--help", help), ("--from", source), ("--to", target), ("--base", base),
    ("--lists", lists), ("--no-prefixes", noLabels), ("--no-base", noBase),
    ("--validate-only", validateOnly), ("--stats", statistics), ("-v", verbose),
    ("--verbose", verbose), ("--version", version)]

/-- The name of an option in messages: all its spellings. -/
def title (opt : Opt) : String :=
  "/".intercalate ((spellings.filter (·.2 = opt)).map (·.1))

def takesValue : Opt → Bool
  | source | target | base | lists => true
  | _ => false

def choices? : Opt → Option (List String)
  | source | target => some (formatNames.map (·.1))
  | lists => some ["auto", "off"]
  | _ => none

end Opt

structure Arguments where
  input : String
  output : Option String := none
  source : Option String := none
  target : Option String := none
  base : Option Plain := none
  lists : String := "auto"
  noLabels : Bool := false
  noBase : Bool := false
  validateOnly : Bool := false
  statistics : Bool := false
  verbose : Bool := false
  deriving DecidableEq, Repr

/-- Why the arguments ask for no conversion. -/
inductive Stop where
  | help
  | version
  | wrong (message : String)
  deriving DecidableEq, Repr

namespace Arguments

/-- An option as it is written: the option, if there is one; whether it has one hyphen; and the
text that is attached to it. -/
structure Use where
  written : String
  opt : Option Opt
  isShort : Bool
  attached : Option (List Char)
  deriving DecidableEq, Repr

/-- A sorted argument. Behind the terminator all arguments are operands. -/
inductive Piece where
  | operand (text : String)
  | terminator
  | use (use : Use)
  deriving DecidableEq, Repr

def Piece.text : Piece → String
  | .operand text => text
  | .terminator => "--"
  | .use option => option.written

/-! ### Sorting -/

/-- The text before the first equals sign, and what is behind it. -/
def cutEquals (text : List Char) : List Char × Option (List Char) :=
  (text.takeWhile (· != '='), (text.dropWhile (· != '=')).tail?)

/-- The uses that an argument may be an abbreviation of, with their full spellings. -/
def readings (written : String) : List (String × Use) :=
  let text := written.toList
  match text with
  | '-' :: '-' :: _ =>
    let (start, attached) := cutEquals text
    (Opt.spellings.filter fun entry => start.isPrefixOf entry.1.toList).map fun entry =>
      (entry.1, ⟨written, some entry.2, false, attached⟩)
  | _ =>
    Opt.spellings.filterMap fun entry =>
      if entry.1.toList = text.take 2 then
        some (entry.1, ⟨written, some entry.2, true, some (text.drop 2)⟩)
      else if text.isPrefixOf entry.1.toList then
        some (entry.1, ⟨written, some entry.2, false, none⟩)
      else none

/-- Whether a text is a number below zero, in the digits of any script. It may end with a line
feed. -/
def isNegative (text : List Char) : Bool :=
  match if text.getLast? = some '\n' then text.dropLast else text with
  | '-' :: rest =>
    match rest.dropWhile Text.isDecimal with
    | [] => !rest.isEmpty
    | mark :: digits => mark == '.' && !digits.isEmpty && digits.all Text.isDecimal
  | _ => false

/-- The use of an option that is written out, with what is attached to it. -/
def exactUse? (written : String) : Option Use :=
  let isShort := written.toList[1]? ≠ some '-'
  match Opt.spellings.lookup written with
  | some opt => some ⟨written, some opt, isShort, none⟩
  | none =>
    let (start, attached) := cutEquals written.toList
    if attached.isSome then
      (Opt.spellings.lookup (String.ofList start)).map fun opt =>
        ⟨written, some opt, isShort, attached⟩
    else none

def sortOne (written : String) : Except Stop Piece :=
  let text := written.toList
  if text.head? ≠ some '-' ∨ text = ['-'] then .ok (.operand written)
  else match exactUse? written with
    | some use => .ok (.use use)
    | none =>
      match readings written with
      | [(_, use)] => .ok (.use use)
      | [] =>
        if isNegative text || text.contains ' ' then .ok (.operand written)
        else .ok (.use ⟨written, none, false, none⟩)
      | several =>
        .error (.wrong ("ambiguous option: " ++ written ++ " could match "
          ++ ", ".intercalate (several.map (·.1))))

def sort : List String → Except Stop (List Piece)
  | [] => .ok []
  | written :: rest =>
    if written = "--" then .ok (.terminator :: rest.map .operand)
    else do
      let piece ← sortOne written
      return piece :: (← sort rest)

/-! ### Reading -/

/-- What has been read: the arguments so far, the input path, and what nobody has a use for. -/
structure Progress where
  arguments : Arguments := { input := "" }
  input : Option String := none
  extras : List String := []
  deriving DecidableEq, Repr

def wrongFor {α : Type} (opt : Opt) (message : String) : Except Stop α :=
  .error (.wrong ("argument " ++ opt.title ++ ": " ++ message))

def ignored {α : Type} (opt : Opt) (text : List Char) : Except Stop α :=
  wrongFor opt ("ignored explicit argument " ++ Text.quoted (String.ofList text))

def checkChoice (opt : Opt) (value : String) : Except Stop Unit :=
  match opt.choices? with
  | some choices =>
    if choices.contains value then .ok ()
    else wrongFor opt ("invalid choice: " ++ Text.quoted value ++ " (choose from "
      ++ ", ".intercalate (choices.map Text.quoted) ++ ")")
  | none => .ok ()

/-- The arguments with a value of an option. Without a value the option holds an empty list, which
names no format and is neither a base nor a way to write lists. -/
def setValue (arguments : Arguments) (opt : Opt) (value : Option String) : Arguments :=
  match opt with
  | .source => { arguments with source := value }
  | .target => { arguments with target := value }
  | .base => { arguments with base := some (value.elim (.ofList []) .text) }
  | .lists => { arguments with lists := value.getD (Plain.ofList []).display }
  | _ => arguments

def setFlag (arguments : Arguments) : Opt → Except Stop Arguments
  | .help => .error .help
  | .version => .error .version
  | .noLabels => .ok { arguments with noLabels := true }
  | .noBase => .ok { arguments with noBase := true }
  | .validateOnly => .ok { arguments with validateOnly := true }
  | .statistics => .ok { arguments with statistics := true }
  | .verbose => .ok { arguments with verbose := true }
  | _ => .ok arguments

/-- The options of one hyphen that stand together, of which the first is known. -/
def cluster (opt : Opt) : List Char → Except Stop (List Opt)
  | [] => .ok [opt]
  | c :: rest =>
    match Opt.spellings.lookup (String.ofList ['-', c]) with
    | none => ignored opt (c :: rest)
    | some next => do
      return opt :: (← cluster next rest)

def readValue (p : Progress) (opt : Opt) (value : String) : Except Stop Progress := do
  checkChoice opt value
  return { p with arguments := p.arguments.setValue opt value }

/-- Reads the value that is attached to an option. The terminator is no value. -/
def readAttached (p : Progress) (opt : Opt) (value : String) : Except Stop Progress :=
  if value = "--" then .ok { p with arguments := p.arguments.setValue opt none }
  else readValue p opt value

/-- Reads an option, and tells whether it still wants a value. -/
def readUse (p : Progress) (option : Use) : Except Stop (Progress × Option Opt) :=
  match option.opt, option.attached with
  | none, _ => .ok ({ p with extras := p.extras ++ [option.written] }, none)
  | some opt, some text =>
    if opt.takesValue then do
      return (← readAttached p opt (String.ofList text), none)
    else if option.isShort && !text.isEmpty then do
      let opts ← cluster opt text
      return ({ p with arguments := ← opts.foldlM setFlag p.arguments }, none)
    else ignored opt text
  | some opt, none =>
    if opt.takesValue then .ok (p, some opt)
    else do
      return ({ p with arguments := ← setFlag p.arguments opt }, none)

/-- Whether a terminator comes first, and what is behind it. -/
def passTerminator : List Piece → Bool × List Piece
  | .terminator :: rest => (true, rest)
  | pieces => (false, pieces)

/-- The operand that the input takes, along with a terminator on either side, and the rest. -/
def takeInput (pieces : List Piece) : Option (String × List Piece) :=
  match (passTerminator pieces).2 with
  | .operand text :: rest => some (text, (passTerminator rest).2)
  | _ => none

/-- The operand that the output takes, if there is one, and the rest. An operand that looks like
the terminator counts for nothing unless the terminator comes directly before it. -/
def takeOutput (pieces : List Piece) : Option String × List Piece :=
  let (terminated, behind) := passTerminator pieces
  match behind with
  | .operand text :: rest =>
    (if text = "--" && !terminated then none else some text, (passTerminator rest).2)
  | rest => (none, rest)

/-- Reads a run of operands. The first run with an operand fills the place of the input and, where
it goes on, that of the output; what is left over has no use. -/
def readRun (p : Progress) (run : List Piece) : Progress :=
  let (p, rest) := match p.input, takeInput run with
    | none, some (input, rest) =>
      let (output, rest) := takeOutput rest
      ({ p with input := some input, arguments := { p.arguments with output } }, rest)
    | _, _ => (p, run)
  { p with extras := p.extras ++ rest.map Piece.text }

/-- Reads pieces behind a run of operands, or behind an option that wants a value. -/
def readFrom (p : Progress) (run : List Piece) : Option Opt → List Piece → Except Stop Progress
  | none, [] => .ok (readRun p run)
  | some opt, [] => wrongFor opt "expected one argument"
  | some opt, .operand value :: rest => do
    readFrom (← readValue p opt value) run none rest
  | some opt, _ :: _ => wrongFor opt "expected one argument"
  | none, .use option :: rest => do
    let (p, wanting) ← readUse (readRun p run) option
    readFrom p [] wanting rest
  | none, piece :: rest => readFrom p (run ++ [piece]) none rest

def read (written : List String) : Except Stop Arguments := do
  let p ← readFrom {} [] none (← sort written)
  match p.input, p.extras with
  | none, _ => .error (.wrong "the following arguments are required: input")
  | some input, [] => return { p.arguments with input }
  | some _, extras =>
    .error (.wrong ("unrecognized arguments: " ++ " ".intercalate extras))

end Arguments

end Rdf.Command

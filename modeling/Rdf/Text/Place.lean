/-!
Places in a text, as line and column, both counted from one. Only a line feed begins a new line.
-/

namespace Rdf

structure Place where
  line : Int
  column : Int
  deriving DecidableEq, Repr

namespace Place

/-- The place of the first character of a text. -/
def start : Place := ⟨1, 1⟩

def next (place : Place) (c : Char) : Place :=
  if c = '\n' then ⟨place.line + 1, 1⟩ else ⟨place.line, place.column + 1⟩

def after (place : Place) (text : List Char) : Place := text.foldl next place

/-- Whether two texts are the same. A text is not compared with itself. -/
def isSame (s t : List Char) : Bool := withPtrEq s t (fun _ => s == t) beq_iff_eq.2

/-- The place where the rest of a text begins, when the text begins at a place. -/
def upTo (place : Place) (text rest : List Char) : Place :=
  match text with
  | [] => place
  | c :: later => if isSame text rest then place else (place.next c).upTo later rest

/-- The place of an offset into a text. Columns of offsets outside of the text are counted from its
end. Offsets beyond the end go on in the last line, and those below zero are in line zero. -/
def ofOffset (text : List Char) (offset : Int) : Place :=
  if 0 ≤ offset ∧ offset ≤ text.length then start.after (text.take offset.toNat)
  else
    let last := start.after text
    ⟨if offset < 0 then 0 else last.line, last.column + (offset - text.length)⟩

/-! ### Places by the table of lines -/

/-- Where the lines behind the line feeds of a text begin, when the text begins at an offset. -/
def feedEnds (offset : Int) : List Char → List Int
  | [] => []
  | c :: rest =>
    if c = '\n' then (offset + 1) :: feedEnds (offset + 1) rest else feedEnds (offset + 1) rest

def lineStarts (text : List Char) : Array Int := (0 :: feedEnds 0 text).toArray

/-- The index between two others behind all entries that are at most an offset, where the entries
ascend. -/
def searchRight (entries : Array Int) (offset : Int) (low high : Nat) : Nat :=
  if low < high then
    let middle := (low + high) / 2
    if offset < entries.getD middle 0 then searchRight entries offset low middle
    else searchRight entries offset (middle + 1) high
  else low
termination_by high - low

/-- The place of an offset into a text, by the last line that begins at the offset or before it.
Offsets below zero are in line zero, with columns from the start of the last line. -/
def locate (text : List Char) (offset : Int) : Place :=
  let starts := lineStarts text
  let line := searchRight starts offset 0 starts.size
  let opening := starts.getD ((if line = 0 then starts.size else line) - 1) 0
  ⟨line, offset - opening + 1⟩

theorem ofOffset_of_le {text : List Char} {offset : Nat} (h : offset ≤ text.length) :
    ofOffset text offset = start.after (text.take offset) := by
  simp [ofOffset, h]

theorem isSame_iff (s t : List Char) : isSame s t = true ↔ s = t := beq_iff_eq

theorem upTo_append (place : Place) (s rest : List Char) :
    place.upTo (s ++ rest) rest = place.after s := by
  induction s generalizing place with
  | nil =>
    cases rest with
    | nil => rfl
    | cons c later => simp [upTo, after, isSame_iff]
  | cons c s ih =>
    have hne : ¬ c :: (s ++ rest) = rest := by
      intro h
      have hl := congrArg List.length h
      simp only [List.length_cons, List.length_append] at hl
      omega
    simp only [List.cons_append, upTo, isSame_iff, if_neg hne, ih]
    rfl

theorem after_append (place : Place) (s t : List Char) :
    place.after (s ++ t) = (place.after s).after t :=
  List.foldl_append

end Place

end Rdf

import Rdf.Text.Hex

/-!
Text from UTF-8.

The decoder reads one byte at a time and keeps the sequence that it is inside of. A fault names the
bytes of the sequence up to the first one that cannot belong to it.
-/

namespace Rdf.Utf8

/-- What is wrong with a sequence of bytes. -/
inductive Flaw where
  | startByte
  | continuation
  | truncated
  deriving DecidableEq, Repr

/-- The first sequence of bytes that is no character: where it starts, how many bytes were read
of it and which byte leads it. -/
structure Fault where
  start : Nat
  count : Nat
  lead : UInt8
  flaw : Flaw
  deriving DecidableEq, Repr

def Flaw.message : Flaw → String
  | startByte => "invalid start byte"
  | continuation => "invalid continuation byte"
  | truncated => "unexpected end of data"

def Fault.message (fault : Fault) : String :=
  let extent :=
    if fault.count = 1 then
      "byte 0x" ++ String.ofList (Text.hexDigits .lower 2 fault.lead.toNat) ++ " in position "
        ++ toString fault.start
    else
      "bytes in position " ++ toString fault.start ++ "-"
        ++ toString (fault.start + fault.count - 1)
  "'utf-8' codec can't decode " ++ extent ++ ": " ++ fault.flaw.message

/-- An unfinished sequence: its lead byte, the value read so far, the range that the next byte has
to lie in and how many bytes follow that one. -/
structure Partial where
  start : Nat
  lead : UInt8
  count : Nat
  value : Nat
  next : Nat × Nat
  later : Nat
  deriving DecidableEq, Repr

/-- The range of continuation bytes. -/
def continuation : Nat × Nat := (0x80, 0xBF)

/-- What a byte begins: a character of its own, a longer sequence, or nothing. The range of the
second byte leaves out overlong forms, surrogates and values beyond the last code point. -/
def Partial.ofLead (start : Nat) (lead : UInt8) : Except Fault (Char ⊕ Partial) :=
  let n := lead.toNat
  if n < 0x80 then .ok (.inl (Char.ofNat n))
  else if n < 0xC2 then .error ⟨start, 1, lead, .startByte⟩
  else if n < 0xE0 then .ok (.inr ⟨start, lead, 1, n - 0xC0, continuation, 0⟩)
  else if n < 0xF0 then
    let second := if n = 0xE0 then (0xA0, 0xBF) else if n = 0xED then (0x80, 0x9F) else continuation
    .ok (.inr ⟨start, lead, 1, n - 0xE0, second, 1⟩)
  else if n < 0xF5 then
    let second := if n = 0xF0 then (0x90, 0xBF) else if n = 0xF4 then (0x80, 0x8F) else continuation
    .ok (.inr ⟨start, lead, 1, n - 0xF0, second, 2⟩)
  else .error ⟨start, 1, lead, .startByte⟩

/-- The sequence with one more byte, or the character that the byte completes. -/
def Partial.extend (partly : Partial) (byte : UInt8) : Except Fault (Char ⊕ Partial) :=
  let n := byte.toNat
  if partly.next.1 ≤ n ∧ n ≤ partly.next.2 then
    let value := partly.value * 64 + (n - 0x80)
    match partly.later with
    | 0 => .ok (.inl (Char.ofNat value))
    | later + 1 =>
      .ok (.inr { partly with
        count := partly.count + 1, value := value, next := continuation, later := later })
  else .error ⟨partly.start, partly.count, partly.lead, .continuation⟩

/-- Decodes bytes from a position on, inside of a sequence or between two. -/
def decodeFrom (position : Nat) (inside : Option Partial) : List UInt8 → Except Fault (List Char)
  | [] =>
    match inside with
    | none => .ok []
    | some partly => .error ⟨partly.start, partly.count, partly.lead, .truncated⟩
  | byte :: bytes => do
    let read ← match inside with
      | none => Partial.ofLead position byte
      | some partly => partly.extend byte
    match read with
    | .inl c => return c :: (← decodeFrom (position + 1) none bytes)
    | .inr partly => decodeFrom (position + 1) (some partly) bytes

def decode (bytes : List UInt8) : Except Fault (List Char) := decodeFrom 0 none bytes

def mark : List UInt8 := [0xEF, 0xBB, 0xBF]

def dropMark (bytes : List UInt8) : List UInt8 :=
  if mark.isPrefixOf bytes then bytes.drop mark.length else bytes

def encodeChar (c : Char) : List UInt8 := (String.singleton c).toUTF8.toList

end Rdf.Utf8

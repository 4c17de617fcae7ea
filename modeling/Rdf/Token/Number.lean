import Rdf.Text.Class
import Rdf.Token.Scan

/-!
Numbers and language tags.

A pattern takes the longest start of a text that has its form. The forms are such that a pattern
never has to give back what one of its parts has taken.
-/

namespace Rdf

inductive NumberKind where
  | integer
  | decimal
  | double
  deriving DecidableEq, Repr

/-- What a form takes of a text, and the rest; nothing where the text has not the form. -/
abbrev Pattern : Type := List Char → Option (List Char × List Char)

namespace Pattern

open Text

def seq (p q : Pattern) : Pattern := fun text => do
  let (first, rest) ← p text
  let (second, rest) ← q rest
  return (first ++ second, rest)

/-- The first form, or the second where the first is not met. -/
def orElse (p q : Pattern) : Pattern := fun text => (p text).or (q text)

def optional (p : Pattern) : Pattern := fun text => (p text).or (some ([], text))

def one (kind : Char → Bool) : Pattern
  | [] => none
  | c :: rest => if kind c then some ([c], rest) else none

def many (kind : Char → Bool) : Pattern := fun text =>
  some (text.takeWhile kind, text.dropWhile kind)

def atLeastOne (kind : Char → Bool) : Pattern := seq (one kind) (many kind)

def sign : Pattern := optional (one fun c => c == '+' || c == '-')

def point : Pattern := one (· == '.')

def exponentMark : Pattern := one fun c => c == 'e' || c == 'E'

def integer : Pattern := seq sign (atLeastOne isDigit)

def decimal : Pattern := seq sign (seq (many isDigit) (seq point (atLeastOne isDigit)))

def mantissa : Pattern :=
  orElse (seq (atLeastOne isDigit) (optional (seq point (many isDigit))))
    (seq point (atLeastOne isDigit))

def double : Pattern := seq sign (seq mantissa (seq exponentMark (seq sign (atLeastOne isDigit))))

def ofKind : NumberKind → Pattern
  | .integer => integer
  | .decimal => decimal
  | .double => double

def isTagChar (c : Char) : Bool := isLetter c || isDigit c

/-- The later parts of a language tag: a hyphen belongs to the tag where a letter or a digit
follows it. -/
def tagTail : List Char → List Char × List Char
  | [] => ([], [])
  | c :: rest =>
    if isTagChar c || (c == '-' && rest.head?.any isTagChar) then
      let (tail, left) := tagTail rest
      (c :: tail, left)
    else ([], c :: rest)

/-- Language tags: letters, then parts of letters and digits, each behind a hyphen. -/
def languageTag : Pattern :=
  seq (atLeastOne isLetter) fun text =>
    some (if text.head? = some '-' then tagTail text else ([], text))

def fits (p : Pattern) (text : List Char) : Bool := (p text).any fun taken => taken.2.isEmpty

/-! ### What patterns keep -/

/-- Nothing is lost between what a pattern takes and the rest. -/
def Exact (p : Pattern) : Prop :=
  ∀ ⦃text taken rest : List Char⦄, p text = some (taken, rest) → taken ++ rest = text

/-- A pattern never takes the empty text. -/
def Proper (p : Pattern) : Prop :=
  ∀ ⦃text taken rest : List Char⦄, p text = some (taken, rest) → taken ≠ []

theorem seq_eq_some {p q : Pattern} {text taken rest : List Char}
    (h : seq p q text = some (taken, rest)) :
    ∃ first middle second, p text = some (first, middle) ∧ q middle = some (second, rest) ∧
      taken = first ++ second := by
  simp only [seq, bind, Option.bind_eq_some_iff, pure, Option.some.injEq, Prod.mk.injEq] at h
  obtain ⟨⟨first, middle⟩, hp, ⟨second, last⟩, hq, rfl, rfl⟩ := h
  exact ⟨first, middle, second, hp, hq, rfl⟩

theorem Exact.seq {p q : Pattern} (hp : Exact p) (hq : Exact q) : Exact (seq p q) := by
  intro text taken rest h
  obtain ⟨first, middle, second, h1, h2, rfl⟩ := seq_eq_some h
  rw [List.append_assoc, hq h2, hp h1]

theorem Exact.orElse {p q : Pattern} (hp : Exact p) (hq : Exact q) : Exact (orElse p q) := by
  intro text taken rest h
  obtain h | ⟨_, h⟩ := Option.or_eq_some_iff.1 h
  · exact hp h
  · exact hq h

theorem Exact.optional {p : Pattern} (hp : Exact p) : Exact (optional p) := by
  intro text taken rest h
  obtain h | ⟨_, h⟩ := Option.or_eq_some_iff.1 h
  · exact hp h
  · simp only [Option.some.injEq, Prod.mk.injEq] at h
    rw [← h.1, ← h.2, List.nil_append]

theorem exact_one (kind : Char → Bool) : Exact (one kind) := by
  intro text taken rest h
  unfold one at h
  split at h
  · simp at h
  · split at h
    · simp only [Option.some.injEq, Prod.mk.injEq] at h
      rw [← h.1, ← h.2, List.singleton_append]
    · simp at h

theorem exact_many (kind : Char → Bool) : Exact (many kind) := by
  intro text taken rest h
  simp only [many, Option.some.injEq, Prod.mk.injEq] at h
  rw [← h.1, ← h.2, List.takeWhile_append_dropWhile]

theorem exact_atLeastOne (kind : Char → Bool) : Exact (atLeastOne kind) :=
  (exact_one kind).seq (exact_many kind)

theorem proper_one (kind : Char → Bool) : Proper (one kind) := by
  intro text taken rest h
  unfold one at h
  split at h
  · simp at h
  · split at h
    · simp only [Option.some.injEq, Prod.mk.injEq] at h
      simp [← h.1]
    · simp at h

theorem Proper.seq_left {p : Pattern} (q : Pattern) (hp : Proper p) : Proper (seq p q) := by
  intro text taken rest h
  obtain ⟨first, middle, second, h1, _, rfl⟩ := seq_eq_some h
  simp [hp h1]

theorem Proper.seq_right (p : Pattern) {q : Pattern} (hq : Proper q) : Proper (seq p q) := by
  intro text taken rest h
  obtain ⟨first, middle, second, _, h2, rfl⟩ := seq_eq_some h
  simp [hq h2]

theorem proper_atLeastOne (kind : Char → Bool) : Proper (atLeastOne kind) :=
  (proper_one kind).seq_left _

theorem exact_sign : Exact sign := (exact_one _).optional

theorem exact_mantissa : Exact mantissa :=
  ((exact_atLeastOne _).seq ((exact_one _).seq (exact_many _)).optional).orElse
    ((exact_one _).seq (exact_atLeastOne _))

theorem exact_ofKind (kind : NumberKind) : Exact (ofKind kind) := by
  cases kind with
  | integer => exact exact_sign.seq (exact_atLeastOne _)
  | decimal => exact exact_sign.seq ((exact_many _).seq ((exact_one _).seq (exact_atLeastOne _)))
  | double =>
    exact exact_sign.seq (exact_mantissa.seq
      ((exact_one _).seq (exact_sign.seq (exact_atLeastOne _))))

theorem proper_ofKind (kind : NumberKind) : Proper (ofKind kind) := by
  cases kind with
  | integer => exact (proper_atLeastOne _).seq_right _
  | decimal => exact (((proper_one _).seq_left _).seq_right _).seq_right _
  | double => exact (((proper_one _).seq_left _).seq_right _).seq_right _

theorem tagTail_append (text : List Char) : (tagTail text).1 ++ (tagTail text).2 = text := by
  induction text with
  | nil => rfl
  | cons c rest ih =>
    simp only [tagTail]
    split
    · simp [ih]
    · rfl

/-- The later parts of a language tag, where there are any. -/
theorem exact_tagParts :
    Exact fun text => some (if text.head? = some '-' then tagTail text else ([], text)) := by
  intro text taken rest h
  simp only [Option.some.injEq] at h
  split at h
  · have := tagTail_append text
    rwa [h] at this
  · simp only [Prod.mk.injEq] at h
    rw [← h.1, ← h.2, List.nil_append]

theorem exact_languageTag : Exact languageTag := (exact_atLeastOne _).seq exact_tagParts

theorem Exact.length_le {p : Pattern} (hp : Exact p) {text taken rest : List Char}
    (h : p text = some (taken, rest)) : rest.length ≤ text.length := by
  have := congrArg List.length (hp h)
  rw [List.length_append] at this
  omega

theorem Exact.length_lt {p : Pattern} (hp : Exact p) (hn : Proper p)
    {text taken rest : List Char} (h : p text = some (taken, rest)) :
    rest.length < text.length := by
  have hl := congrArg List.length (hp h)
  have hpos := List.length_pos_iff.2 (hn h)
  rw [List.length_append] at hl
  omega

end Pattern

end Rdf

import Rdf.Token.Walk

/-!
Readings of a cursor, step by step.

What a walk gives is what its steps give one after the other. From the start of a document on, what
a cursor looks at is the text that is left.
-/

namespace Rdf.Cursor

variable {α β : Type} {cursor behind : Cursor} {value : α} {literal text first second : List Char}
  {stop : Int} {count : Nat}

/-! ### The text that is left -/

theorem lookingAt_of_nonneg (h : 0 ≤ cursor.offset) (hne : literal ≠ []) :
    cursor.lookingAt literal = true ↔ literal <+: cursor.rest := by
  have hbefore : cursor.before cursor.offset = cursor.offset.toNat := if_neg (by omega)
  rw [lookingAt, rest, if_pos h, hbefore, Bool.and_eq_true, decide_eq_true_eq,
    List.isPrefixOf_iff_prefix]
  apply and_iff_right_of_imp
  -- where nothing is left, no literal is
  intro hstart
  have hlength := hstart.length_le
  have hpos := List.length_pos_iff.2 hne
  rw [List.length_drop] at hlength
  omega

/-- Two literals of one length that come next are the same. -/
theorem eq_of_lookingAt (hfirst : cursor.lookingAt first = true)
    (hsecond : cursor.lookingAt second = true) (hlength : first.length = second.length) :
    first = second := by
  simp only [lookingAt, Bool.and_eq_true, List.isPrefixOf_iff_prefix] at hfirst hsecond
  exact (List.prefix_of_prefix_length_le hfirst.2 hsecond.2 (by omega)).eq_of_length hlength

theorem rest_moveTo (h : 0 ≤ cursor.offset) (hstop : stop = cursor.offset + count) :
    (cursor.moveTo stop).rest = cursor.rest.drop count := by
  have hmoved : (cursor.moveTo stop).rest = cursor.text.drop stop.toNat := if_pos (by
    simp only [moveTo]
    omega)
  have hsum : stop.toNat = cursor.offset.toNat + count := by omega
  rw [hmoved, hsum, rest, if_pos h, List.drop_drop]

theorem offsetOf_append (h : cursor.rest = first ++ second) :
    cursor.offsetOf second = cursor.offset + first.length := by
  rw [offsetOf, h, List.length_append]
  omega

theorem run_eq_ok_iff {scan : List Char → Scan α} : cursor.run scan = (.ok value, behind) ↔
    ∃ left, scan cursor.rest = .ok (value, left) ∧
      behind = cursor.moveTo (cursor.offsetOf left) := by
  unfold run
  cases hscan : scan cursor.rest with
  | error fault => simp
  | ok found =>
    obtain ⟨given, left⟩ := found
    simp only [Prod.mk.injEq, Except.ok.injEq]
    constructor
    · rintro ⟨rfl, rfl⟩
      exact ⟨left, ⟨rfl, rfl⟩, rfl⟩
    · rintro ⟨left, ⟨rfl, rfl⟩, rfl⟩
      exact ⟨rfl, rfl⟩

/-! ### Walks -/

theorem walk_bind_eq_ok {walk : Walk α} {next : α → Walk β} {value : β} :
    cursor.walk (walk >>= next) = (.ok value, behind) ↔
      ∃ given middle, cursor.walk walk = (.ok given, middle) ∧
        middle.walk (next given) = (.ok value, behind) := by
  have hbind : cursor.walk (walk >>= next) = match cursor.walk walk with
      | (.ok given, middle) => middle.walk (next given)
      | (.error fault, middle) => (.error fault, middle) := by
    simp only [Cursor.walk, ExceptT.run_bind, StateT.run_bind]
    rcases h : (ExceptT.run walk).run cursor with ⟨_ | _, _⟩ <;> rfl
  rw [hbind]
  rcases h : cursor.walk walk with ⟨_ | given, middle⟩
  · simp
  · constructor
    · intro hnext
      exact ⟨given, middle, rfl, hnext⟩
    · rintro ⟨_, _, ⟨⟩, hnext⟩
      exact hnext

theorem walk_pure_eq_ok {given : α} :
    cursor.walk (pure given) = (.ok value, behind) ↔ given = value ∧ cursor = behind := by
  have hpure : cursor.walk (pure given) = (.ok given, cursor) := rfl
  rw [hpure, Prod.mk.injEq, Except.ok.injEq]

theorem walk_fail_ne_ok {fault : LexicalFault} {offset : Option Int} :
    cursor.walk (Walk.fail fault offset) ≠ (.ok value, behind) := by
  have hfail : cursor.walk (Walk.fail fault offset) = (cursor.fail fault offset : Step α) := rfl
  simp [hfail, fail]

theorem walk_takeIf_eq_ok {found : Bool} :
    cursor.walk (Walk.takeIf literal) = (.ok found, behind) ↔
      cursor.lookingAt literal = found ∧
        behind = if found then cursor.moveTo (cursor.offset + literal.length) else cursor := by
  have hstep : cursor.walk (Walk.takeIf literal) = cursor.takeIf literal := rfl
  rw [hstep, takeIf]
  cases hlooking : cursor.lookingAt literal <;> cases found <;> simp [eq_comm]

theorem walk_require_eq_ok {fault : LexicalFault} {done : Unit} :
    cursor.walk (Walk.require literal fault) = (.ok done, behind) ↔
      cursor.lookingAt literal = true ∧
        behind = cursor.moveTo (cursor.offset + literal.length) := by
  simp only [Walk.require, walk_bind_eq_ok, walk_takeIf_eq_ok]
  constructor
  · rintro ⟨found, middle, ⟨hfound, hmiddle⟩, h⟩
    cases found with
    | false => exact absurd h walk_fail_ne_ok
    | true =>
      obtain ⟨-, rfl⟩ := walk_pure_eq_ok.1 h
      exact ⟨hfound, hmiddle⟩
  · rintro ⟨hfound, hbehind⟩
    exact ⟨true, behind, ⟨hfound, hbehind⟩, walk_pure_eq_ok.2 ⟨rfl, rfl⟩⟩

end Rdf.Cursor

import Rdf.Token.Cursor

/-!
Names with dots inside.

What is scanned of such a name is the longest start of the text that is made of accepted characters
and of dots and that a dot does not end. A cursor reads it from behind the characters that are known
already.
-/

namespace Rdf

variable {accept : Char → Bool} {c : Char} {name rest text : List Char}

/-- A start of a text that is of a kind, and that goes at least as far as all other such starts. -/
structure IsLongestStart (kind : List Char → Prop) (text taken : List Char) : Prop where
  isStart : taken <+: text
  isKind : kind taken
  isLongest : ∀ other, other <+: text → kind other → other <+: taken

/-- A text of accepted characters and dots that is empty or ends with an accepted character. -/
def IsDotted (accept : Char → Bool) (name : List Char) : Prop :=
  (∀ c ∈ name, accept c = true ∨ c = '.') ∧ ∀ c ∈ name.getLast?, accept c = true

theorem isDotted_nil (accept : Char → Bool) : IsDotted accept [] := by simp [IsDotted]

/-- A dot goes on only with more of a name. -/
theorem isDotted_cons :
    IsDotted accept (c :: name) ↔
      (accept c = true ∨ c = '.' ∧ name ≠ []) ∧ IsDotted accept name := by
  cases name with
  | nil =>
    simp only [IsDotted, List.forall_mem_singleton, List.getLast?_singleton, Option.mem_some_iff,
      forall_eq', ne_eq, not_true, and_false, or_false]
    exact ⟨fun h => ⟨h.2, by simp⟩, fun h => ⟨.inl h.1, h.1⟩⟩
  | cons d name =>
    simp only [IsDotted, List.forall_mem_cons, List.getLast?_cons_cons, ne_eq, reduceCtorEq,
      not_false_eq_true, and_true, and_assoc]

namespace Scan

theorem dotted_cons (accept : Char → Bool) (c : Char) (rest : List Char) :
    (dotted accept (c :: rest)).1 =
      if accept c = true ∨ c = '.' ∧ (dotted accept rest).1 ≠ [] then
        c :: (dotted accept rest).1
      else [] := by
  cases hc : accept c
  · by_cases hdot : c = '.'
    · subst hdot
      cases hname : (dotted accept rest).1 <;> simp [dotted, hc, hname]
    · simp [dotted, hc, hdot]
  · simp [dotted, hc]

/-- What is scanned is as long as it can be. -/
theorem isLongestStart_dotted (accept : Char → Bool) (text : List Char) :
    IsLongestStart (IsDotted accept) text (dotted accept text).1 := by
  induction text with
  | nil => exact ⟨List.prefix_rfl, isDotted_nil accept, fun other h _ => h⟩
  | cons c rest ih =>
    rw [dotted_cons]
    split
    · next hc =>
      refine ⟨List.cons_prefix_cons.2 ⟨rfl, ih.isStart⟩, isDotted_cons.2 ⟨hc, ih.isKind⟩,
        fun other hstart hkind => ?_⟩
      cases other with
      | nil => exact List.nil_prefix
      | cons d other =>
        obtain ⟨rfl, hother⟩ := List.cons_prefix_cons.1 hstart
        exact List.cons_prefix_cons.2
          ⟨rfl, ih.isLongest other hother (isDotted_cons.1 hkind).2⟩
    · next hc =>
      refine ⟨List.nil_prefix, isDotted_nil accept, fun other hstart hkind => ?_⟩
      cases other with
      | nil => exact List.prefix_rfl
      | cons d other =>
        -- a name that begins here would go on where the scan has found none
        obtain ⟨rfl, hother⟩ := List.cons_prefix_cons.1 hstart
        obtain ⟨hd, hrest⟩ := isDotted_cons.1 hkind
        refine absurd (hd.imp_right fun hdot => ⟨hdot.1, fun hnone => hdot.2 ?_⟩) hc
        exact List.prefix_nil.1 (hnone ▸ ih.isLongest other hother hrest)

end Scan

namespace Cursor

variable {cursor : Cursor} {known start : Int}

theorem slice_drop (h : 0 ≤ start) (hname : name <+: cursor.text.drop start.toNat) :
    cursor.slice start (start + name.length) = name := by
  have hstart : cursor.before start = start.toNat := if_neg (by omega)
  have hstop : cursor.before (start + name.length) = start.toNat + name.length := by
    rw [before, if_neg (by omega)]
    omega
  rw [slice, hstart, hstop, Nat.add_sub_cancel_left]
  exact (List.prefix_iff_eq_take.1 hname).symm

/-- A cursor reads the longest name behind the characters that are known, gives that name and stops
behind it. -/
theorem dottedBy_longest (accept : Char → Bool) (h : 0 ≤ cursor.offset + known) :
    ∃ name, IsLongestStart (IsDotted accept)
        (cursor.text.drop (cursor.offset + known).toNat) name ∧
      cursor.dottedBy accept known =
        (.ok name, cursor.moveTo (cursor.offset + known + name.length)) := by
  have hlongest := Scan.isLongestStart_dotted accept
    (cursor.text.drop (cursor.offset + known).toNat)
  refine ⟨_, hlongest, ?_⟩
  have hinside : ¬cursor.offset + known + cursor.text.length < 0 := by omega
  have hahead : ¬cursor.offset + known < 0 := by omega
  simp only [dottedBy, if_neg hinside, if_neg hahead, List.nil_append,
    slice_drop h hlongest.isStart]

theorem dottedBy_longest_dots :
    (0 : Int) ≤ 2 + 1 ∧
      ∃ name, IsLongestStart (IsDotted Text.isNameChar) "..b.. .".toList name ∧
        dottedBy ⟨"_:a..b.. .".toList, 2, false⟩ Text.isNameChar 1 =
          (.ok name, ⟨"_:a..b.. .".toList, 3 + name.length, false⟩) :=
  ⟨by decide, @dottedBy_longest ⟨"_:a..b.. .".toList, 2, false⟩ 1 Text.isNameChar (by decide)⟩

end Cursor

end Rdf

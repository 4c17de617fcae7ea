import Mathlib.Data.List.Induction
import Rdf.Text.Place

/-!
Places by lines.

The table of lines and the binary search in it give the same places as counting. The line and the
column of a place are numbers of characters, and the offset comes back from them.
-/

namespace Rdf.Place

variable {entries later : List Int} {offset : Int} {text : List Char}

/-! ### The table -/

theorem feedEnds_append (offset : Int) (s t : List Char) :
    feedEnds offset (s ++ t) = feedEnds offset s ++ feedEnds (offset + s.length) t := by
  induction s generalizing offset with
  | nil => simp [feedEnds]
  | cons c s ih =>
    have hoffset : offset + 1 + s.length = offset + (c :: s).length := by
      rw [List.length_cons]
      omega
    simp only [List.cons_append, feedEnds, ih, hoffset]
    split <;> rfl

theorem mem_feedEnds {x : Int} (h : x ∈ feedEnds offset text) :
    offset < x ∧ x ≤ offset + text.length := by
  induction text generalizing offset with
  | nil => cases h
  | cons c text ih =>
    have hlater : x ∈ feedEnds (offset + 1) text →
        offset < x ∧ x ≤ offset + (c :: text).length := by
      intro h
      have hbounds := ih h
      rw [List.length_cons]
      omega
    simp only [feedEnds] at h
    split at h
    · obtain rfl | h := List.mem_cons.1 h
      · rw [List.length_cons]
        omega
      · exact hlater h
    · exact hlater h

theorem le_of_mem_feedEnds (h : text.length ≤ offset) : ∀ x ∈ feedEnds 0 text, x ≤ offset := by
  intro x hx
  have hbounds := mem_feedEnds hx
  omega

/-- Where the last line of a text begins. -/
def lastStart (text : List Char) : Int := (feedEnds 0 text).getLastD 0

/-- Each line feed begins a line, whose start is the last one so far. -/
theorem after_eq_feedEnds (text : List Char) :
    start.after text = ⟨(0 :: feedEnds 0 text).length, text.length - lastStart text + 1⟩ := by
  induction text using List.reverseRecOn with
  | nil => rfl
  | append_singleton text c ih =>
    rw [after_append, ih]
    by_cases hc : c = '\n'
    · simp [lastStart, after, next, feedEnds_append, feedEnds, hc]
    · simp [lastStart, after, next, feedEnds_append, feedEnds, hc]
      omega

/-! ### The search -/

/-- What the search asks of an entry: on which side of the offset it is. -/
theorem offset_lt_getD_iff (hentries : ∀ x ∈ entries, x ≤ offset) (hlater : ∀ x ∈ later, offset < x)
    {i : Nat} (hi : i < (entries ++ later).length) :
    offset < (entries ++ later).toArray.getD i 0 ↔ entries.length ≤ i := by
  have hget : (entries ++ later).toArray.getD i 0 = (entries ++ later)[i] := by
    simp [Array.getD_eq_getD_getElem?, List.getElem?_eq_getElem hi]
  rw [hget]
  by_cases hleft : i < entries.length
  · have hle := hentries _ (List.getElem_mem hleft)
    rw [List.getElem_append_left hleft]
    omega
  · rw [List.getElem_append_right (by omega)]
    exact iff_of_true (hlater _ (List.getElem_mem _)) (by omega)

/-- The search stops between the entries up to an offset and those beyond it. -/
theorem searchRight_append (hentries : ∀ x ∈ entries, x ≤ offset) (hlater : ∀ x ∈ later, offset < x)
    {low high : Nat} (hlow : low ≤ entries.length) (hhigh : entries.length ≤ high)
    (hsize : high ≤ (entries ++ later).length) :
    searchRight (entries ++ later).toArray offset low high = entries.length := by
  fun_induction searchRight (entries ++ later).toArray offset low high with
  | case1 low high hlt middle hless ih =>
    have hmiddle := (offset_lt_getD_iff hentries hlater (by omega)).1 hless
    exact ih hlow hmiddle (by omega)
  | case2 low high hlt middle hnot ih =>
    have hmiddle := mt (offset_lt_getD_iff hentries hlater (by omega)).2 hnot
    exact ih (by omega) hhigh hsize
  | case3 low high hdone => omega

theorem getD_last (entries later : List Int) :
    (0 :: (entries ++ later)).toArray.getD entries.length 0 = entries.getLastD 0 := by
  obtain rfl | ⟨front, last, rfl⟩ := entries.eq_nil_or_concat
  · rfl
  · simp [Array.getD_eq_getD_getElem?]

/-- From the start of a text on, the search finds the line that begins last. -/
theorem locate_of_nonneg (h : 0 ≤ offset) (htext : feedEnds 0 text = entries ++ later)
    (hentries : ∀ x ∈ entries, x ≤ offset) (hlater : ∀ x ∈ later, offset < x) :
    locate text offset = ⟨(0 :: entries).length, offset - entries.getLastD 0 + 1⟩ := by
  have hline : searchRight (lineStarts text) offset 0 (lineStarts text).size =
      entries.length + 1 := by
    rw [lineStarts, htext]
    exact searchRight_append (List.forall_mem_cons.2 ⟨h, hentries⟩) hlater (Nat.zero_le _)
      (by simp) (by simp)
  have hopening : (lineStarts text).getD entries.length 0 = entries.getLastD 0 := by
    rw [lineStarts, htext, getD_last]
  simp only [locate, hline, Nat.add_one_ne_zero, if_false, Nat.add_sub_cancel, hopening,
    List.length_cons]

/-- Before the start of a text, columns are counted from the start of the last line. -/
theorem locate_of_neg (h : offset < 0) :
    locate text offset = ⟨0, offset - lastStart text + 1⟩ := by
  have hbehind : ∀ x ∈ 0 :: feedEnds 0 text, offset < x :=
    List.forall_mem_cons.2 ⟨h, fun x hx => Int.lt_trans h (mem_feedEnds hx).1⟩
  have hline : searchRight (lineStarts text) offset 0 (lineStarts text).size = 0 :=
    searchRight_append (List.forall_mem_nil _) hbehind (Nat.zero_le _) (Nat.zero_le _)
      (Nat.le_refl _)
  have hopening : (lineStarts text).getD ((lineStarts text).size - 1) 0 = lastStart text := by
    have hlast := getD_last (feedEnds 0 text) []
    rwa [List.append_nil] at hlast
  simp only [locate, hline, if_true, hopening]
  rfl

/-- The search gives the place that counting gives, inside of the text and outside of it. -/
theorem locate_eq_ofOffset (text : List Char) (offset : Int) :
    locate text offset = ofOffset text offset := by
  rw [ofOffset]
  by_cases hneg : offset < 0
  · rw [locate_of_neg hneg, if_neg (by omega), after_eq_feedEnds]
    simp only [if_pos hneg]
    congr 1
    omega
  by_cases hle : offset ≤ text.length
  · -- the lines that begin up to the offset are those of the text before it
    have hlength : ((text.take offset.toNat).length : Int) = offset := by
      rw [List.length_take]
      omega
    have htext : feedEnds 0 text =
        feedEnds 0 (text.take offset.toNat) ++ feedEnds offset (text.drop offset.toNat) := by
      have happend := feedEnds_append 0 (text.take offset.toNat) (text.drop offset.toNat)
      rwa [List.take_append_drop, hlength, Int.zero_add] at happend
    have hbefore := le_of_mem_feedEnds (Int.le_of_eq hlength)
    rw [if_pos (by omega), after_eq_feedEnds, hlength,
      locate_of_nonneg (by omega) htext hbefore fun x hx => (mem_feedEnds hx).1]
    rfl
  · have hbefore : ∀ x ∈ feedEnds 0 text, x ≤ offset := le_of_mem_feedEnds (by omega)
    rw [if_neg (by omega), after_eq_feedEnds,
      locate_of_nonneg (by omega) (List.append_nil _).symm hbefore (List.forall_mem_nil _)]
    simp only [if_neg hneg]
    congr 1
    rw [lastStart]
    omega

/-! ### Lines, columns and offsets -/

/-- The column is one more than the number of characters behind the last line feed. -/
theorem column_after (text : List Char) :
    (start.after text).column = 1 + (text.reverse.takeWhile (· ≠ '\n')).length := by
  induction text using List.reverseRecOn with
  | nil => rfl
  | append_singleton text c ih =>
    have hnext : start.after (text ++ [c]) = (start.after text).next c := after_append _ _ _
    rw [hnext, List.reverse_concat, next]
    by_cases hc : c = '\n'
    · simp [hc]
    · simp only [hc, if_false, ih, ne_eq, not_false_eq_true, decide_true,
        List.takeWhile_cons_of_pos, List.length_cons]
      omega

/-- The offset of a place in a text: the start of its line and the characters before its column. -/
def offsetIn (text : List Char) (place : Place) : Int :=
  (lineStarts text).getD (place.line - 1).toNat 0 + (place.column - 1)

theorem line_locate_ne_zero (h : 0 ≤ offset) : (locate text offset).line ≠ 0 := by
  rw [locate_eq_ofOffset, ofOffset]
  split
  · rw [after_eq_feedEnds]
    exact Int.natCast_ne_zero.2 (Nat.succ_ne_zero _)
  · rw [after_eq_feedEnds]
    simp only [if_neg (Int.not_lt.2 h)]
    exact Int.natCast_ne_zero.2 (Nat.succ_ne_zero _)

/-- The offset comes back from its place. -/
theorem offsetIn_locate (h : 0 ≤ offset) : (locate text offset).offsetIn text = offset := by
  have hline := @line_locate_ne_zero offset text h
  simp only [offsetIn, locate] at hline ⊢
  generalize searchRight (lineStarts text) offset 0 (lineStarts text).size = line at hline ⊢
  have hindex : ((line : Int) - 1).toNat = line - 1 := by omega
  rw [if_neg (Int.natCast_ne_zero.1 hline), hindex]
  omega

end Rdf.Place

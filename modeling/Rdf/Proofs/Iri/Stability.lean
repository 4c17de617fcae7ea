import Rdf.Proofs.Iri.Resolution

/-!
One pass removes all dot segments.

What the stack leaves has no dot segments, and a path without dot segments stays as it is. Where the
segments in front of an empty one go, as in `.//a`, the first pass ends with a slash at the front of
the path, and a second one cuts it elsewhere: what it puts on its stack is then what the first one
left there, without the empty segment at the bottom.
-/

namespace Rdf.Path

variable {path : List Char} {parts kept : List (List Char)}

/-! ### Cuts at slashes -/

theorem segments_eq_splitOn (path : List Char) : segments path = path.splitOn '/' := by
  have hsplit := List.splitOn_intercalate '/' (not_mem_segments path) (segments_ne_nil path)
  have hjoin : ['/'].intercalate (segments path) = path := join_segments path
  rw [hjoin] at hsplit
  exact hsplit.symm

theorem segments_join (hslash : ∀ segment ∈ parts, '/' ∉ segment) (hne : parts ≠ []) :
    segments (join parts) = parts := by
  rw [segments_eq_splitOn]
  exact List.splitOn_intercalate '/' hslash hne

theorem segments_slash (path : List Char) : segments ('/' :: path) = [] :: segments path := by
  rw [segments, if_pos rfl]

/-! ### What the stack leaves -/

theorem isSettled_nil_cons : IsSettled ([] :: parts) ↔ IsSettled parts := by
  simp [IsSettled]

theorem isSettled_reverse : IsSettled parts.reverse ↔ IsSettled parts := by
  simp [IsSettled]

theorem isSettled_settle (h : IsSettled kept) : IsSettled (settle kept parts) := by
  constructor
  · intro hmem
    obtain hnil | hkept | ⟨-, hdot, -⟩ := mem_settle hmem
    · exact List.cons_ne_nil _ _ hnil
    · exact h.1 hkept
    · exact hdot rfl
  · intro hmem
    obtain hnil | hkept | ⟨-, -, hdots⟩ := mem_settle hmem
    · exact List.cons_ne_nil _ _ hnil
    · exact h.2 hkept
    · exact hdots rfl

/-- The segments of a path come from the stack as they are, without a slash in any of them. -/
theorem segments_join_settle (path : List Char) :
    segments (join (settle [] (segments path)).reverse) = (settle [] (segments path)).reverse := by
  apply segments_join
  · intro segment hsegment
    obtain rfl | hkept | ⟨hpart, -⟩ := mem_settle (List.mem_reverse.1 hsegment)
    · exact List.not_mem_nil
    · exact absurd hkept List.not_mem_nil
    · exact not_mem_segments path segment hpart
  · exact reverse_settle_ne_nil (segments_ne_nil path)

theorem isSettled_segments_join_settle (path : List Char) :
    IsSettled (segments (join (settle [] (segments path)).reverse)) := by
  rw [segments_join_settle, isSettled_reverse]
  exact isSettled_settle ⟨List.not_mem_nil, List.not_mem_nil⟩

/-! ### The pass with and without dots -/

/-- What the segments of a path leave, whether or not there are dots in it. -/
def settlePath : List Char → List Char
  | '/' :: relative => '/' :: join (settle [] (segments relative)).reverse
  | path => join (settle [] (segments path)).reverse

theorem settlePath_rootless (h : path.head? ≠ some '/') :
    settlePath path = join (settle [] (segments path)).reverse := by
  unfold settlePath
  split
  · simp at h
  · rfl

/-- A path without dots would come back from the stack as it is. -/
theorem removeDots_eq_settlePath (path : List Char) : removeDots path = settlePath path := by
  by_cases hrooted : path.head? = some '/'
  · obtain ⟨relative, rfl⟩ := List.head?_eq_some_iff.1 hrooted
    rw [removeDots_rooted, settlePath, cons_join (reverse_settle_ne_nil (segments_ne_nil relative))]
  · rw [removeDots_rootless hrooted, settlePath_rootless hrooted]

/-! ### Settled paths -/

theorem isSettled_segments_settlePath (path : List Char) :
    IsSettled (segments (settlePath path)) := by
  by_cases hrooted : path.head? = some '/'
  · obtain ⟨relative, rfl⟩ := List.head?_eq_some_iff.1 hrooted
    rw [settlePath, segments_slash, isSettled_nil_cons]
    exact isSettled_segments_join_settle relative
  · rw [settlePath_rootless hrooted]
    exact isSettled_segments_join_settle path

theorem settlePath_of_isSettled (h : IsSettled (segments path)) : settlePath path = path := by
  by_cases hrooted : path.head? = some '/'
  · obtain ⟨relative, rfl⟩ := List.head?_eq_some_iff.1 hrooted
    rw [segments_slash, isSettled_nil_cons] at h
    rw [settlePath, join_settle_of_isSettled h]
  · rw [settlePath_rootless hrooted, join_settle_of_isSettled h]

/-- The paths without dot segments are those that stay as they are. -/
theorem settlePath_eq_self_iff : settlePath path = path ↔ IsSettled (segments path) := by
  constructor
  · intro hsame
    rw [← hsame]
    exact isSettled_segments_settlePath path
  · exact settlePath_of_isSettled

/-- Removal of dot segments leaves none of them, so that a second pass changes nothing. It keeps a
slash at the front, and it leaves a path without dots as the stack would. -/
theorem removeDots_stable (path : List Char) :
    IsSettled ((removeDots path).splitOn '/') ∧
    removeDots (removeDots path) = removeDots path ∧
    (removeDots path = path ↔ IsSettled (path.splitOn '/')) ∧
    (path.head? = some '/' → (removeDots path).head? = some '/') ∧
    ('.' ∉ path → removeDots path = path ∧ settlePath path = path) ∧
    removeDots path = settlePath path := by
  have hpass := removeDots_eq_settlePath
  have hsettled : IsSettled (segments (removeDots path)) := by
    rw [hpass]
    exact isSettled_segments_settlePath path
  rw [← segments_eq_splitOn, ← segments_eq_splitOn]
  refine ⟨hsettled, ?_, ?_, head?_removeDots, fun hplain => ?_, hpass path⟩
  · rw [hpass (removeDots path)]
    exact settlePath_of_isSettled hsettled
  · rw [hpass]
    exact settlePath_eq_self_iff
  · have hpath := settlePath_of_isSettled (isSettled_segments_of_plain hplain)
    rw [hpass]
    exact ⟨hpath, hpath⟩

theorem removeDots_stable_parents :
    let path := "/a/./../..//b/..".toList
    let plain := "a//b".toList
    path.head? = some '/' ∧ '.' ∉ plain ∧
      IsSettled ((removeDots path).splitOn '/') ∧
      removeDots (removeDots path) = removeDots path ∧
      (removeDots path).head? = some '/' ∧
      removeDots plain = plain ∧ settlePath plain = plain := by
  intro path plain
  have hslash : path.head? = some '/' := by decide
  have hdot : '.' ∉ plain := by decide
  obtain ⟨hsettled, hagain, -, hrooted, -, -⟩ := removeDots_stable path
  obtain ⟨-, -, -, -, hplain, -⟩ := removeDots_stable plain
  exact ⟨hslash, hdot, hsettled, hagain, hrooted hslash, hplain hdot⟩

/-- A path may come to have a slash at its front. -/
example : removeDots ".//a".toList = "/a".toList ∧ removeDots "/a".toList = "/a".toList := by
  decide

end Rdf.Path

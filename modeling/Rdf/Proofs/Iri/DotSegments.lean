import Rdf.Proofs.Iri.Standard

/-!
Dot segments, on a stack and in buffers.

The two ways of removing dot segments agree on every path with a slash at its front. They part where
two dots take back the first segment of a path without one: the buffers then leave the slash that
was behind that segment at the front, and the stack leaves nothing.
-/

namespace Rdf

namespace Path

variable {segment first path : List Char} {parts kept : List (List Char)}

/-! ### Segments -/

/-- Segments, each behind a slash. -/
def trail (parts : List (List Char)) : List Char := parts.flatMap ('/' :: ·)

@[simp]
theorem trail_nil : trail [] = [] := rfl

@[simp]
theorem trail_cons (segment : List Char) (parts : List (List Char)) :
    trail (segment :: parts) = '/' :: (segment ++ trail parts) := rfl

@[simp]
theorem trail_append (first second : List (List Char)) :
    trail (first ++ second) = trail first ++ trail second := List.flatMap_append

theorem join_cons (segment : List Char) (parts : List (List Char)) :
    join (segment :: parts) = segment ++ trail parts := by
  induction parts generalizing segment with
  | nil => simp [join, List.intercalate]
  | cons other parts ih => rw [join_cons_cons, ih, trail_cons]

theorem cons_join (h : parts ≠ []) : '/' :: join parts = trail parts := by
  obtain ⟨segment, others, rfl⟩ := List.exists_cons_of_ne_nil h
  rw [join_cons, trail_cons]

theorem forall_mem_segments {p : Char → Prop} (h : ∀ c ∈ path, p c) :
    ∀ segment ∈ segments path, ∀ c ∈ segment, p c := by
  fun_induction segments path with
  | case1 => simp
  | case2 rest ih => simpa using ih fun c hc => h c (List.mem_cons_of_mem _ hc)
  | case3 c rest hc segment others hs ih =>
    have hrest := ih fun d hd => h d (List.mem_cons_of_mem c hd)
    rw [hs, List.forall_mem_cons] at hrest
    exact List.forall_mem_cons.2
      ⟨List.forall_mem_cons.2 ⟨h c List.mem_cons_self, hrest.1⟩, hrest.2⟩
  | case4 c rest hc hs => exact absurd hs (segments_ne_nil rest)

theorem not_mem_segments (path : List Char) : ∀ segment ∈ segments path, '/' ∉ segment := by
  fun_induction segments path with
  | case1 => simp
  | case2 rest ih => simpa using ih
  | case3 c rest hc segment others hs ih =>
    rw [hs, List.forall_mem_cons] at ih
    refine List.forall_mem_cons.2 ⟨?_, ih.2⟩
    simpa [Ne.symm hc] using ih.1
  | case4 c rest hc hs => exact absurd hs (segments_ne_nil rest)

/-! ### The stack -/

theorem settle_ne_nil (h : kept ≠ [] ∨ parts ≠ []) : settle kept parts ≠ [] := by
  fun_induction settle kept parts with
  | case1 kept => simpa using h
  | case2 | case4 => exact List.cons_ne_nil _ _
  | case3 kept rest hrest ih => exact ih (Or.inr (by simpa using hrest))
  | case5 kept rest hrest _ ih => exact ih (Or.inr (by simpa using hrest))
  | case6 kept segment rest _ _ ih => exact ih (Or.inl (List.cons_ne_nil _ _))

theorem reverse_settle_ne_nil (h : parts ≠ []) : (settle [] parts).reverse ≠ [] := by
  simpa using settle_ne_nil (Or.inr h)

/-- What the stack holds at the end was there before, or is a segment that is not of dots, or is the
empty one that a dot segment leaves at the end. -/
theorem mem_settle (h : segment ∈ settle kept parts) :
    segment = [] ∨ segment ∈ kept ∨
      segment ∈ parts ∧ segment ≠ ['.'] ∧ segment ≠ ['.', '.'] := by
  fun_induction settle kept parts with
  | case1 kept => exact Or.inr (Or.inl h)
  | case2 kept =>
    obtain rfl | hkept := List.mem_cons.1 h
    · exact Or.inl rfl
    · exact Or.inr (Or.inl (List.mem_of_mem_tail hkept))
  | case3 kept rest _ ih =>
    obtain hnil | hkept | ⟨hrest, hplain⟩ := ih h
    · exact Or.inl hnil
    · exact Or.inr (Or.inl (List.mem_of_mem_tail hkept))
    · exact Or.inr (Or.inr ⟨List.mem_cons_of_mem _ hrest, hplain⟩)
  | case4 kept =>
    obtain rfl | hkept := List.mem_cons.1 h
    · exact Or.inl rfl
    · exact Or.inr (Or.inl hkept)
  | case5 kept rest _ _ ih =>
    obtain hnil | hkept | ⟨hrest, hplain⟩ := ih h
    · exact Or.inl hnil
    · exact Or.inr (Or.inl hkept)
    · exact Or.inr (Or.inr ⟨List.mem_cons_of_mem _ hrest, hplain⟩)
  | case6 kept top rest hdots hdot ih =>
    obtain hnil | hkept | ⟨hrest, hplain⟩ := ih h
    · exact Or.inl hnil
    · obtain rfl | hkept := List.mem_cons.1 hkept
      · exact Or.inr (Or.inr ⟨List.mem_cons_self, hdot, hdots⟩)
      · exact Or.inr (Or.inl hkept)
    · exact Or.inr (Or.inr ⟨List.mem_cons_of_mem _ hrest, hplain⟩)

/-- No segment is of dots. -/
def IsSettled (parts : List (List Char)) : Prop := ['.'] ∉ parts ∧ ['.', '.'] ∉ parts

theorem settle_of_isSettled (h : IsSettled parts) : settle kept parts = parts.reverse ++ kept := by
  induction parts generalizing kept with
  | nil => rfl
  | cons segment parts ih =>
    obtain ⟨hdot, hdots⟩ := h
    rw [List.mem_cons, not_or] at hdot hdots
    rw [settle, if_neg (Ne.symm hdots.1), if_neg (Ne.symm hdot.1), ih ⟨hdot.2, hdots.2⟩,
      List.reverse_cons, List.append_assoc, List.singleton_append]

theorem isSettled_segments_of_plain (h : '.' ∉ path) : IsSettled (segments path) := by
  have hplain : ∀ segment ∈ segments path, '.' ∉ segment := by
    intro segment hsegment hdot
    exact forall_mem_segments (fun c hc => ne_of_mem_of_not_mem hc h) segment hsegment '.' hdot rfl
  exact ⟨fun hdot => hplain _ hdot (by simp), fun hdots => hplain _ hdots (by simp)⟩

/-- A path without dot segments is what the stack makes of it, too. -/
theorem join_settle_of_isSettled (h : IsSettled (segments path)) :
    join (settle [] (segments path)).reverse = path := by
  rw [settle_of_isSettled h, List.append_nil, List.reverse_reverse, join_segments]

theorem removeDots_rooted (relative : List Char) :
    removeDots ('/' :: relative) = trail (settle [] (segments relative)).reverse := by
  have hne := reverse_settle_ne_nil (segments_ne_nil relative)
  unfold removeDots
  split
  · exact cons_join hne
  · next hplain =>
    have hrelative : '.' ∉ relative := by simpa using hplain
    rw [← cons_join hne, join_settle_of_isSettled (isSettled_segments_of_plain hrelative)]

theorem removeDots_rootless (h : path.head? ≠ some '/') :
    removeDots path = join (settle [] (segments path)).reverse := by
  unfold removeDots
  split
  · split
    · simp at h
    · rfl
  · next hplain =>
    have hpath : '.' ∉ path := by simpa using hplain
    exact (join_settle_of_isSettled (isSettled_segments_of_plain hpath)).symm

/-- Whether two dots take back the first segment, when `kept` segments from it on are kept. -/
def losesFirst (kept : Nat) : List (List Char) → Bool
  | [] => false
  | segment :: rest =>
    if segment = ['.', '.'] then kept == 1 || losesFirst (kept - 1) rest
    else if segment = ['.'] then losesFirst kept rest
    else losesFirst (kept + 1) rest

/-- What is at the bottom of the stack stays there or leaves no trace. -/
theorem settle_concat (kept parts : List (List Char)) (first : List Char) :
    settle (kept ++ [first]) parts = settle kept parts ++
      if losesFirst (kept.length + 1) parts then [] else [first] := by
  induction parts generalizing kept with
  | nil => simp [settle, losesFirst]
  | cons segment rest ih =>
    simp only [settle, losesFirst]
    by_cases hdots : segment = ['.', '.']
    · cases kept with
      | nil => cases rest <;> simp [hdots]
      | cons top kept => cases rest <;> simp [hdots, losesFirst, ih kept]
    · by_cases hdot : segment = ['.']
      · cases rest <;> simp [hdot, losesFirst, ih kept]
      · simpa [hdots, hdot] using ih (segment :: kept)

end Path

namespace Standard

open Rdf.Path

variable {segment front output : List Char} {parts kept : List (List Char)}

/-! ### The buffers -/

theorem takeWhile_trail (h : '/' ∉ segment) :
    (segment ++ trail parts).takeWhile (· != '/') = segment := by
  have hstop : (trail parts).takeWhile (· != '/') = [] := by
    cases parts <;> simp
  rw [List.takeWhile_append_of_pos (by simpa using fun c hc => ne_of_mem_of_not_mem hc h), hstop,
    List.append_nil]

theorem dropWhile_trail (h : '/' ∉ segment) :
    (segment ++ trail parts).dropWhile (· != '/') = trail parts := by
  have hstop : (trail parts).dropWhile (· != '/') = trail parts := by
    cases parts <;> simp
  rw [List.dropWhile_append_of_pos (by simpa using fun c hc => ne_of_mem_of_not_mem hc h), hstop]

theorem rdropWhile_append (h : '/' ∉ segment) (text : List Char) :
    (text ++ segment).rdropWhile (· != '/') = text.rdropWhile (· != '/') := by
  rw [List.rdropWhile, List.reverse_append, List.dropWhile_append_of_pos, List.rdropWhile]
  simpa using fun c hc => ne_of_mem_of_not_mem hc h

theorem dropSegment_trail (hfront : '/' ∉ front) (hkept : ∀ segment ∈ kept, '/' ∉ segment) :
    dropSegment (front ++ trail kept.reverse) =
      (if kept = [] then [] else front) ++ trail kept.tail.reverse := by
  cases kept with
  | nil =>
    have hnone : front.rdropWhile (· != '/') = [] := by simpa using rdropWhile_append hfront []
    simp [dropSegment, hnone]
  | cons top kept =>
    have htop : '/' ∉ top := hkept top List.mem_cons_self
    have htext : front ++ trail (top :: kept).reverse =
        front ++ trail kept.reverse ++ ['/'] ++ top := by simp
    rw [dropSegment, htext, rdropWhile_append htop, List.rdropWhile_concat_neg _ _ _ (by simp)]
    simp

/-- A segment that is not of dots moves as it is. -/
theorem moveSegments_cons {c : Char} {input : List Char}
    (h : c :: input.takeWhile (· != '/') ∉ [['.'], ['.', '.'], ['/', '.'], ['/', '.', '.']]) :
    moveSegments output (c :: input) = moveSegments (output ++ c :: input.takeWhile (· != '/'))
      (input.dropWhile (· != '/')) := by
  rw [moveSegments.eq_def]
  split <;> simp_all

theorem moveSegments_segment (hslash : '/' ∉ segment) (hdots : segment ≠ ['.', '.'])
    (hdot : segment ≠ ['.']) :
    moveSegments output (trail (segment :: parts)) =
      moveSegments (output ++ '/' :: segment) (trail parts) := by
  have htake := @takeWhile_trail segment parts hslash
  rw [trail_cons, moveSegments_cons (by simp [htake, hdots, hdot]), htake, dropWhile_trail hslash]

theorem moveSegments_first (hslash : '/' ∉ segment) (hdots : segment ≠ ['.', '.'])
    (hdot : segment ≠ ['.']) :
    moveSegments [] (segment ++ trail parts) = moveSegments segment (trail parts) := by
  cases segment with
  | nil => rfl
  | cons c segment =>
    obtain ⟨hc, hslash⟩ : '/' ≠ c ∧ '/' ∉ segment := by simpa using hslash
    have htake := @takeWhile_trail segment parts hslash
    rw [List.cons_append, moveSegments_cons, htake, dropWhile_trail hslash, List.nil_append]
    simp_all [Ne.symm hc]

theorem moveSegments_slash (output : List Char) :
    moveSegments output ['/'] = output ++ ['/'] := by
  rw [moveSegments_cons (by simp)]
  simp [moveSegments]

theorem moveSegments_dots (output : List Char) (parts : List (List Char)) :
    moveSegments output (trail (['.', '.'] :: parts)) =
      if parts = [] then dropSegment output ++ ['/']
      else moveSegments (dropSegment output) (trail parts) := by
  cases parts with
  | nil => simp [moveSegments, moveSegments_slash]
  | cons segment parts => simp [moveSegments]

theorem moveSegments_dot (output : List Char) (parts : List (List Char)) :
    moveSegments output (trail (['.'] :: parts)) =
      if parts = [] then output ++ ['/'] else moveSegments output (trail parts) := by
  cases parts with
  | nil => simp [moveSegments, moveSegments_slash]
  | cons segment parts => simp [moveSegments]

/-- The output buffer holds what is on the stack, behind what the stack does not know of. -/
theorem moveSegments_trail (hfront : '/' ∉ front) (hkept : ∀ segment ∈ kept, '/' ∉ segment)
    (hparts : ∀ segment ∈ parts, '/' ∉ segment) :
    moveSegments (front ++ trail kept.reverse) (trail parts) =
      (if losesFirst (kept.length + 1) parts then [] else front) ++
        trail (settle kept parts).reverse := by
  induction parts generalizing front kept with
  | nil => simp [moveSegments, losesFirst, settle]
  | cons segment rest ih =>
    obtain ⟨hsegment, hrest⟩ := List.forall_mem_cons.1 hparts
    by_cases hdots : segment = ['.', '.']
    · -- the front goes when nothing but the front is left
      have hdrop := dropSegment_trail hfront hkept
      have hleft : '/' ∉ if kept = [] then [] else front := by split <;> simp [hfront]
      have hall := ih hleft (fun s hs => hkept s (List.mem_of_mem_tail hs)) hrest
      rw [hdots, moveSegments_dots, hdrop, hall]
      cases kept <;> cases rest <;> simp [losesFirst, settle]
    · by_cases hdot : segment = ['.']
      · rw [hdot, moveSegments_dot, ih hfront hkept hrest]
        cases rest <;> simp [losesFirst, settle]
      · rw [moveSegments_segment hsegment hdots hdot]
        have hall := ih hfront (List.forall_mem_cons.2 ⟨hsegment, hkept⟩) hrest
        simpa [losesFirst, settle, hdots, hdot] using hall

/-- A path without a slash at its front may get one from the buffers. -/
theorem removeDots_join (hparts : ∀ segment ∈ parts, '/' ∉ segment) (hne : parts ≠ []) :
    removeDots (join parts) =
      (if losesFirst 0 parts then ['/'] else []) ++ join (settle [] parts).reverse := by
  rw [removeDots]
  induction parts with
  | nil => exact absurd rfl hne
  | cons segment rest ih =>
    obtain ⟨hsegment, hrest⟩ := List.forall_mem_cons.1 hparts
    by_cases hdots : segment = ['.', '.']
    · cases rest with
      | nil => simp [hdots, join, List.intercalate, moveSegments, losesFirst, settle]
      | cons other rest =>
        have hall := ih hrest (List.cons_ne_nil _ _)
        simpa [hdots, join_cons_cons, moveSegments, losesFirst, settle] using hall
    · by_cases hdot : segment = ['.']
      · cases rest with
        | nil => simp [hdot, join, List.intercalate, moveSegments, losesFirst, settle]
        | cons other rest =>
          have hall := ih hrest (List.cons_ne_nil _ _)
          simpa [hdot, join_cons_cons, moveSegments, losesFirst, settle] using hall
      · have hmove := moveSegments_trail hsegment (List.forall_mem_nil _) hrest
        have hsettle := settle_concat [] rest segment
        rw [join_cons, moveSegments_first hsegment hdots hdot]
        simp only [List.reverse_nil, trail_nil, List.append_nil, List.length_nil, Nat.zero_add,
          List.nil_append] at hmove hsettle
        simp only [losesFirst, settle, if_neg hdots, if_neg hdot, hmove, hsettle]
        by_cases hloses : losesFirst 1 rest
        · have hnil : rest ≠ [] := by
            rintro rfl
            simp [losesFirst] at hloses
          simpa [hloses] using (cons_join (reverse_settle_ne_nil hnil)).symm
        · simp [hloses, join_cons]

theorem removeDots_rooted (relative : List Char) :
    removeDots ('/' :: relative) = Path.removeDots ('/' :: relative) := by
  have htrail := cons_join (segments_ne_nil relative)
  have hmove := moveSegments_trail List.not_mem_nil (List.forall_mem_nil _)
    (not_mem_segments relative)
  rw [join_segments] at htrail
  rw [Path.removeDots_rooted, removeDots, htrail]
  simpa using hmove

theorem removeDots_rootless {path : List Char} (h : path.head? ≠ some '/') :
    removeDots path =
      (if losesFirst 0 (segments path) then ['/'] else []) ++ Path.removeDots path := by
  have hjoin := removeDots_join (not_mem_segments path) (segments_ne_nil path)
  rwa [join_segments, ← Path.removeDots_rootless h] at hjoin

end Standard

end Rdf

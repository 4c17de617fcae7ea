import Mathlib.Data.List.TakeWhile
import Rdf.Proofs.Iri.Components

/-!
The pattern of references.

The groups of `(?:([A-Za-z][A-Za-z0-9+.\-]*):)?(?://([^/?#]*))?([^?#]*)(?:\?([^#]*))?(?:#(.*))?`
are the components of a text. A search takes what it can, as long as it can, and goes back where
that leads to no whole match. `wholeMatches` is the row of all matches in the order of that search,
and `Reference.split` is the first of them.
-/

namespace Rdf.Reference

open Text

/-- Where a search goes on: a group and what is behind it. -/
abbrev Way (group : Type) : Type := group × List Char

variable {α β : Type} {kind : Char → Bool} {text : List Char}

/-! ### The order of a search -/

/-- The ways behind a start of characters of one kind, the longest start first. -/
def starts (kind : Char → Bool) : List Char → List (Way (List Char))
  | [] => [([], [])]
  | c :: rest =>
    if kind c then (starts kind rest).map (fun way => (c :: way.1, way.2)) ++ [([], c :: rest)]
    else [([], c :: rest)]

/-- The ways behind a group that may be left out, which is tried last. -/
def optionally (ways : List (Way (List Char))) (text : List Char) :
    List (Way (Option (List Char))) :=
  ways.map (fun way => (some way.1, way.2)) ++ [(none, text)]

def schemeWays : List Char → List (Way (List Char))
  | [] => []
  | c :: rest =>
    if isLetter c then
      (starts isSchemeChar rest).filterMap fun way =>
        match way.2 with
        | ':' :: after => some (c :: way.1, after)
        | _ => none
    else []

def authorityWays : List Char → List (Way (List Char))
  | '/' :: '/' :: rest => starts (fun c => !endsAuthority c) rest
  | _ => []

def queryWays : List Char → List (Way (List Char))
  | '?' :: rest => starts (· != '#') rest
  | _ => []

def fragmentWays : List Char → List (Way (List Char))
  | '#' :: rest => starts (fun _ => true) rest
  | _ => []

/-- The whole matches of a text, in the order of the search. -/
def wholeMatches (text : List Char) : List Reference :=
  (optionally (schemeWays text) text).flatMap fun scheme =>
  (optionally (authorityWays scheme.2) scheme.2).flatMap fun authority =>
  (starts (fun c => !endsPath c) authority.2).flatMap fun path =>
  (optionally (queryWays path.2) path.2).flatMap fun query =>
  (optionally (fragmentWays query.2) query.2).flatMap fun fragment =>
    if fragment.2 = [] then [⟨scheme.1, authority.1, path.1, query.1, fragment.1⟩] else []

/-! ### What a search tries first -/

theorem head?_starts (kind : Char → Bool) (text : List Char) :
    (starts kind text).head? = some (text.takeWhile kind, text.dropWhile kind) := by
  induction text with
  | nil => rfl
  | cons c rest ih =>
    by_cases hc : kind c = true
    · simp [starts, hc, ih]
    · simp [starts, hc]

/-- A start that is not the longest leaves a character that it could go on with. -/
theorem goes_on_of_mem_starts {way : Way (List Char)} (h : way ∈ starts kind text) :
    way = (text.takeWhile kind, text.dropWhile kind) ∨ ∃ c rest, way.2 = c :: rest ∧ kind c := by
  induction text generalizing way with
  | nil => exact .inl (List.mem_singleton.1 h)
  | cons c rest ih =>
    by_cases hc : kind c = true
    · rw [starts, if_pos hc, List.mem_append, List.mem_singleton, List.mem_map] at h
      obtain ⟨longer, hlonger, rfl⟩ | rfl := h
      · cases ih hlonger with
        | inl he => exact .inl (by simp [he, hc])
        | inr hmore => exact .inr hmore
      · exact .inr ⟨c, rest, rfl, hc⟩
    · rw [starts, if_neg hc] at h
      exact .inl (by simpa [hc] using h)

theorem head?_optionally (ways : List (Way (List Char))) (text : List Char) :
    (optionally ways text).head? =
      some (ways.head?.elim (none, text) fun way => (some way.1, way.2)) := by
  cases ways <;> rfl

/-- A search goes on from its first way if that leads anywhere. -/
theorem head?_flatMap {ways : List α} {first : α} {next : α → List β} {found : β}
    (hways : ways.head? = some first) (hnext : (next first).head? = some found) :
    (ways.flatMap next).head? = some found := by
  obtain ⟨others, rfl⟩ := List.head?_eq_some_iff.1 hways
  simp [List.flatMap_cons, List.head?_append, hnext]

/-- Where the other ways lead nowhere, the first decides. -/
theorem head?_filterMap {ways : List α} {first : α} {next : α → Option β}
    (hways : ways.head? = some first) (hothers : ∀ way ∈ ways, way = first ∨ next way = none) :
    (ways.filterMap next).head? = next first := by
  obtain ⟨others, rfl⟩ := List.head?_eq_some_iff.1 hways
  cases hfirst : next first with
  | some found => simp [hfirst]
  | none =>
    have hnone : ∀ way ∈ first :: others, next way = none := fun way hway =>
      (hothers way hway).elim (fun he => he ▸ hfirst) id
    simp [List.filterMap_eq_nil_iff.2 hnone]

/-! ### Group by group -/

theorem head?_schemeWays (text : List Char) : (schemeWays text).head? = takeScheme? text := by
  cases text with
  | nil => rfl
  | cons c rest =>
    by_cases hc : isLetter c = true
    · rw [schemeWays, if_pos hc, takeScheme?, if_pos hc]
      refine head?_filterMap (head?_starts isSchemeChar rest) fun way hway => ?_
      refine (goes_on_of_mem_starts hway).imp_right ?_
      -- a start that is not the longest one is not in front of a colon
      rintro ⟨d, after, hafter, hd⟩
      rw [hafter]
      split
      · next hcolon =>
        obtain ⟨rfl, -⟩ := List.cons.inj hcolon
        simp [isSchemeChar, isLetter, isDigit] at hd
      · rfl
    · simp [schemeWays, takeScheme?, hc]

theorem head?_scheme (text : List Char) :
    (optionally (schemeWays text) text).head? = some (cutScheme text) := by
  rw [head?_optionally, head?_schemeWays, cutScheme]
  cases takeScheme? text <;> rfl

theorem head?_authority (text : List Char) :
    (optionally (authorityWays text) text).head? = some (cutAuthority text) := by
  unfold authorityWays cutAuthority
  split
  · simp [head?_optionally, head?_starts]
  · simp [head?_optionally, *]

theorem head?_query (text : List Char) :
    (optionally (queryWays text) text).head? = some (cutQuery text) := by
  unfold queryWays cutQuery
  split
  · simp [head?_optionally, head?_starts]
  · simp [head?_optionally, *]

theorem head?_fragment (h : text.head?.all (· == '#') = true) :
    (optionally (fragmentWays text) text).head? = some (cutFragment text, []) := by
  cases text with
  | nil => rfl
  | cons c rest =>
    obtain rfl : c = '#' := by simpa using h
    have hall : ∀ c ∈ rest, (fun _ : Char => true) c = true := fun _ _ => rfl
    simp [head?_optionally, fragmentWays, head?_starts, cutFragment,
      List.takeWhile_eq_self_iff.2 hall, List.dropWhile_eq_nil_iff.2 hall]

/-- Behind a path and its query only a fragment is left. -/
theorem head?_cutQuery (h : text.head?.all endsPath = true) :
    (cutQuery text).2.head?.all (· == '#') = true := by
  cases text with
  | nil => rfl
  | cons c rest =>
    have hc : c = '?' ∨ c = '#' := by simpa [endsPath] using h
    obtain rfl | rfl := hc
    · exact head?_dropWhile_all (· == '#') rest
    · rfl

/-- The components of a text are the groups of the first whole match. -/
theorem head?_wholeMatches (text : List Char) :
    (wholeMatches text).head? = some (split text) := by
  refine head?_flatMap (head?_scheme text) (head?_flatMap (head?_authority _)
    (head?_flatMap (head?_starts _ _) (head?_flatMap (head?_query _)
      (head?_flatMap (head?_fragment (head?_cutQuery (head?_dropWhile_all endsPath _))) ?_))))
  rfl

/-- Every text is matched, and put together again from its components. A row of components is found
again if and only if none of them can be taken for another. -/
theorem split_unsplit_iff :
    (∀ text, (wholeMatches text).head? = some (split text) ∧ (split text).unsplit = text) ∧
      ∀ r, split r.unsplit = r ↔ r.Separated :=
  ⟨fun text => ⟨head?_wholeMatches text, unsplit_split text⟩,
    fun r => ⟨fun h => h ▸ separated_split r.unsplit, split_unsplit_of_separated⟩⟩

/-- Components may be empty, and line ends may stand in them. -/
example : split "s://\n/a?#\n".toList =
    ⟨some ['s'], some ['\n'], ['/', 'a'], some [], some ['\n']⟩ := by decide

end Rdf.Reference

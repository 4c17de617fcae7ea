import Rdf.Proofs.Iri.Schemes

/-!
Components that a text is cut into again.

A row of components can be read back from the text put together from it when no component holds a
mark that ends it, and when no component that is absent can be read into those behind it. The
components of every text are such.
-/

namespace Rdf

namespace Reference

variable {scheme authority query fragment : Option (List Char)} {path rest : List Char}

/-- No component can be taken for another, or for the end of itself. -/
structure Separated (r : Reference) : Prop where
  scheme : ∀ scheme ∈ r.scheme, IsScheme scheme
  authority : ∀ authority ∈ r.authority, ∀ c ∈ authority, endsAuthority c = false
  path : ∀ c ∈ r.path, endsPath c = false
  query : ∀ query ∈ r.query, '#' ∉ query
  rooted : r.authority ≠ none → r.path = [] ∨ r.path.head? = some '/'
  single : r.authority = none → ¬ ['/', '/'] <+: r.path
  relative : r.scheme = none → r.authority = none → hasScheme r.path = false

/-! ### Reading back -/

theorem takeScheme?_append {name : List Char} (h : IsScheme name) (rest : List Char) :
    takeScheme? (name ++ ':' :: rest) = some (name, rest) := by
  cases name with
  | nil => exact h.elim
  | cons c name =>
    have hcolon : isSchemeChar ':' = false := by decide
    simp [takeScheme?, h.1, List.takeWhile_append_of_pos h.2, List.dropWhile_append_of_pos h.2,
      hcolon]

theorem cutScheme_schemeText (h : ∀ name ∈ scheme, IsScheme name)
    (hrest : scheme = none → hasScheme rest = false) :
    cutScheme (schemeText scheme ++ rest) = (scheme, rest) := by
  cases scheme with
  | none =>
    have hnone : takeScheme? rest = none := by simpa [hasScheme] using hrest rfl
    simp [cutScheme, schemeText, hnone]
  | some name => simp [cutScheme, schemeText, takeScheme?_append (h name rfl)]

theorem takeWhile_append_of_all {kind : Char → Bool} {text rest : List Char}
    (h : ∀ c ∈ text, kind c = false) (hrest : rest.head?.all kind = true) :
    (text ++ rest).takeWhile (fun c => !kind c) = text ∧
      (text ++ rest).dropWhile (fun c => !kind c) = rest := by
  have hall : ∀ c ∈ text, (!kind c) = true := fun c hc => by simp [h c hc]
  rw [List.takeWhile_append_of_pos hall, List.dropWhile_append_of_pos hall]
  cases rest with
  | nil => simp
  | cons c rest =>
    have hc : kind c = true := by simpa using hrest
    simp [hc]

theorem cutAuthority_authorityText (h : ∀ name ∈ authority, ∀ c ∈ name, endsAuthority c = false)
    (hends : authority ≠ none → rest.head?.all endsAuthority = true)
    (hsingle : authority = none → ¬ ['/', '/'] <+: rest) :
    cutAuthority (authorityText authority ++ rest) = (authority, rest) := by
  cases authority with
  | none =>
    rw [authorityText, List.nil_append, cutAuthority.eq_def]
    split
    · next text => exact absurd (List.prefix_append ['/', '/'] text) (hsingle rfl)
    · rfl
  | some name =>
    obtain ⟨htake, hdrop⟩ := takeWhile_append_of_all (h name rfl) (hends (by simp))
    simp [authorityText, cutAuthority, htake, hdrop]

theorem cutQuery_markedText (h : ∀ text ∈ query, '#' ∉ text)
    (hrest : rest.head?.all (· == '#') = true) :
    cutQuery (markedText '?' query ++ rest) = (query, rest) := by
  cases query with
  | none =>
    cases rest with
    | nil => rfl
    | cons c rest =>
      obtain rfl : c = '#' := by simpa using hrest
      rfl
  | some text =>
    have hall : ∀ c ∈ text, (c == '#') = false := by
      simpa using fun c hc => ne_of_mem_of_not_mem hc (h text rfl)
    obtain ⟨htake, hdrop⟩ := takeWhile_append_of_all hall hrest
    simp only [markedText, List.cons_append, cutQuery, bne, htake, hdrop]

theorem cutFragment_markedText : cutFragment (markedText '#' fragment) = fragment := by
  cases fragment <;> rfl

theorem head?_fragmentText : (markedText '#' fragment).head?.all (· == '#') = true := by
  cases fragment <;> rfl

theorem head?_queryText :
    (markedText '?' query ++ markedText '#' fragment).head?.all endsPath = true := by
  cases query <;> cases fragment <;> rfl

/-- What is behind a path does not make its front a scheme. -/
theorem hasScheme_append_of_ends (hrest : rest.head?.all endsPath = true) :
    hasScheme (path ++ rest) = hasScheme path := by
  cases rest with
  | nil => rw [List.append_nil]
  | cons mark rest =>
    obtain rfl | rfl : mark = '?' ∨ mark = '#' := by simpa [endsPath] using hrest
    all_goals
      cases path with
      | nil => rfl
      | cons c path =>
        have hmark : isSchemeChar '?' = false ∧ isSchemeChar '#' = false := by decide
        simp only [hasScheme, takeScheme?, List.cons_append, List.dropWhile_append]
        cases hd : path.dropWhile isSchemeChar with
        | nil => simp [hmark]
        | cons d after =>
          by_cases hc : Text.isLetter c <;> by_cases hcolon : d = ':' <;> simp [hc, hcolon]

theorem not_prefix_append (hrest : rest.head?.all endsPath = true)
    (h : ¬ ['/', '/'] <+: path) : ¬ ['/', '/'] <+: path ++ rest := by
  have hslash : rest.head? ≠ some '/' := fun he => by simp [he, endsPath] at hrest
  rintro ⟨text, htext⟩
  cases path with
  | nil =>
    obtain rfl : '/' :: '/' :: text = rest := htext
    exact hslash rfl
  | cons c path =>
    obtain ⟨rfl, hbehind⟩ : '/' = c ∧ '/' :: text = path ++ rest := by simpa using htext
    cases path with
    | nil =>
      obtain rfl : '/' :: text = rest := hbehind
      exact hslash rfl
    | cons d path =>
      obtain ⟨rfl, -⟩ : '/' = d ∧ text = path ++ rest := by simpa using hbehind
      exact h (List.prefix_append ['/', '/'] path)

theorem head?_append_ends (hrest : rest.head?.all endsPath = true)
    (h : path = [] ∨ path.head? = some '/') : (path ++ rest).head?.all endsAuthority = true := by
  obtain rfl | hslash := h
  · cases rest with
    | nil => rfl
    | cons c rest =>
      obtain rfl | rfl : c = '?' ∨ c = '#' := by simpa [endsPath] using hrest
      all_goals rfl
  · simp [List.head?_append, hslash, endsAuthority]

/-- Separated components are those of the text put together from them. -/
theorem split_unsplit_of_separated {r : Reference} (h : r.Separated) : split r.unsplit = r := by
  obtain ⟨scheme, authority, path, query, fragment⟩ := r
  let tail := markedText '?' query ++ markedText '#' fragment
  have htail : tail.head?.all endsPath = true := head?_queryText
  have hscheme : cutScheme (unsplit ⟨scheme, authority, path, query, fragment⟩) =
      (scheme, authorityText authority ++ (path ++ tail)) := by
    simp only [unsplit, List.append_assoc]
    refine cutScheme_schemeText h.scheme fun hnone => ?_
    cases authority with
    | none =>
      rw [authorityText, List.nil_append, hasScheme_append_of_ends htail]
      exact h.relative hnone rfl
    | some name => rfl
  have hauthority : cutAuthority (authorityText authority ++ (path ++ tail)) =
      (authority, path ++ tail) :=
    cutAuthority_authorityText h.authority (fun hsome => head?_append_ends htail (h.rooted hsome))
      fun hnone => not_prefix_append htail (h.single hnone)
  obtain ⟨hpath, hbehind⟩ := takeWhile_append_of_all h.path htail
  have hquery := cutQuery_markedText h.query (@head?_fragmentText fragment)
  simp only [split, hscheme, hauthority, hpath, hbehind, tail, hquery, cutFragment_markedText]

/-! ### Reading -/

variable {text : List Char}

theorem of_mem_takeWhile {kind : Char → Bool} {c : Char}
    (h : c ∈ text.takeWhile fun c => !kind c) : kind c = false := by
  simpa using List.all_eq_true.1 List.all_takeWhile c h

theorem isScheme_of_cutScheme : ∀ name ∈ (cutScheme text).1, IsScheme name := by
  intro name hname
  cases htake : takeScheme? text with
  | none => simp [cutScheme, htake] at hname
  | some found =>
    obtain rfl : found.1 = name := by simpa [cutScheme, htake] using hname
    exact isScheme_of_take htake

theorem ends_of_cutAuthority :
    ∀ name ∈ (cutAuthority text).1, ∀ c ∈ name, endsAuthority c = false := by
  intro name hname c hc
  unfold cutAuthority at hname
  split at hname
  · obtain rfl := Option.some.inj hname
    exact of_mem_takeWhile hc
  · simp at hname

theorem head?_cutAuthority (h : (cutAuthority text).1 ≠ none) :
    (cutAuthority text).2.head?.all endsAuthority = true := by
  unfold cutAuthority at h ⊢
  split at h
  · exact head?_dropWhile_all endsAuthority _
  · exact absurd rfl h

theorem cutAuthority_eq_none (h : (cutAuthority text).1 = none) :
    (cutAuthority text).2 = text ∧ ¬ ['/', '/'] <+: text := by
  unfold cutAuthority at h ⊢
  split at h
  · simp at h
  · next hno =>
    refine ⟨rfl, ?_⟩
    rintro ⟨rest, rfl⟩
    exact hno rest rfl

theorem cutQuery_mem : ∀ query ∈ (cutQuery text).1, '#' ∉ query := by
  intro query hquery hmark
  unfold cutQuery at hquery
  split at hquery
  · obtain rfl := Option.some.inj hquery
    exact Bool.noConfusion (@of_mem_takeWhile _ (· == '#') _ hmark)
  · simp at hquery

theorem path_split (text : List Char) : (split text).path =
    (cutAuthority (cutScheme text).2).2.takeWhile fun c => !endsPath c := rfl

theorem authority_split (text : List Char) :
    (split text).authority = (cutAuthority (cutScheme text).2).1 := rfl

/-- The components of a text are separated. -/
theorem separated_split (text : List Char) : (split text).Separated where
  scheme := isScheme_of_cutScheme
  authority := ends_of_cutAuthority
  path _ hc := of_mem_takeWhile hc
  query := cutQuery_mem
  rooted hauthority := by
    rw [authority_split] at hauthority
    have hhead := head?_cutAuthority hauthority
    rw [path_split]
    cases hrest : (cutAuthority (cutScheme text).2).2 with
    | nil => exact Or.inl rfl
    | cons c rest =>
      rw [hrest] at hhead
      obtain (rfl | rfl) | rfl : (c = '/' ∨ c = '?') ∨ c = '#' := by
        simpa [endsAuthority] using hhead
      · exact Or.inr rfl
      · exact Or.inl rfl
      · exact Or.inl rfl
  single hauthority := by
    rw [authority_split] at hauthority
    obtain ⟨hrest, hslashes⟩ := cutAuthority_eq_none hauthority
    rw [path_split, hrest]
    exact fun hslashed => hslashes (List.IsPrefix.trans hslashed (List.takeWhile_prefix _))
  relative hscheme hauthority := by
    have hnone : takeScheme? text = none := by
      cases htake : takeScheme? text with
      | none => rfl
      | some found => simp [split, cutScheme, htake] at hscheme
    have hcut : cutScheme text = (none, text) := by simp [cutScheme, hnone]
    rw [authority_split, hcut] at hauthority
    obtain ⟨hrest, -⟩ := cutAuthority_eq_none hauthority
    rw [path_split, hcut, hrest, Bool.eq_false_iff]
    intro hpath
    have htext := hasScheme_append hpath (text.dropWhile fun c => !endsPath c)
    rw [List.takeWhile_append_dropWhile] at htext
    simp [hasScheme, hnone] at htext

end Reference

end Rdf

import Rdf.Proofs.Iri.Components
import Rdf.Proofs.Iri.DotSegments

/-!
Resolution, beside the one that the generic URI syntax defines.

The two are the same except where a base and a reference make up a path without a slash at its front
and two dots take back the first segment of it. The components of a target are read back from its
text, except where a path with two slashes at its front comes to stand behind the scheme.
-/

namespace Rdf

namespace Path

variable {path : List Char} {parts : List (List Char)}

theorem forall_mem_trail {p : Char → Prop} (hslash : p '/')
    (h : ∀ segment ∈ parts, ∀ c ∈ segment, p c) : ∀ c ∈ trail parts, p c := by
  intro c hc
  obtain ⟨segment, hsegment, hc⟩ := List.mem_flatMap.1 hc
  obtain rfl | hc := List.mem_cons.1 hc
  · exact hslash
  · exact h segment hsegment c hc

theorem forall_mem_removeDots {p : Char → Prop} (hslash : p '/') (h : ∀ c ∈ path, p c) :
    ∀ c ∈ removeDots path, p c := by
  have htrail : ∀ relative : List Char, (∀ c ∈ relative, p c) →
      ∀ c ∈ trail (settle [] (segments relative)).reverse, p c := by
    intro relative hrelative
    refine forall_mem_trail hslash fun segment hsegment => ?_
    obtain rfl | hkept | ⟨hpart, -⟩ := mem_settle (List.mem_reverse.1 hsegment)
    · exact List.forall_mem_nil _
    · exact absurd hkept List.not_mem_nil
    · exact forall_mem_segments hrelative segment hpart
  by_cases hrooted : path.head? = some '/'
  · obtain ⟨relative, rfl⟩ := List.head?_eq_some_iff.1 hrooted
    rw [removeDots_rooted]
    exact htrail relative (List.forall_mem_cons.1 h).2
  · have hall := htrail path h
    rw [← cons_join (reverse_settle_ne_nil (segments_ne_nil path))] at hall
    rw [removeDots_rootless hrooted]
    exact (List.forall_mem_cons.1 hall).2

theorem head?_removeDots (h : path.head? = some '/') : (removeDots path).head? = some '/' := by
  obtain ⟨relative, rfl⟩ := List.head?_eq_some_iff.1 h
  rw [removeDots_rooted, ← cons_join (reverse_settle_ne_nil (segments_ne_nil relative)),
    List.head?_cons]

theorem exists_directory_append (path : List Char) : ∃ last, directory path ++ last = path :=
  List.rdropWhile_prefix (· != '/') path

theorem head?_directory (h : path.head? = some '/') : (directory path).head? = some '/' := by
  obtain ⟨relative, rfl⟩ := List.head?_eq_some_iff.1 h
  obtain ⟨last, hlast⟩ := exists_directory_append ('/' :: relative)
  cases hkept : directory ('/' :: relative) with
  | nil =>
    have hall := List.rdropWhile_eq_nil_iff.1 hkept '/' List.mem_cons_self
    simp at hall
  | cons c kept =>
    rw [hkept] at hlast
    rw [List.head?_cons, (List.cons.inj hlast).1]

theorem forall_mem_merge {base : Reference} {p : Char → Prop} (hslash : p '/')
    (hbase : ∀ c ∈ base.path, p c) (h : ∀ c ∈ path, p c) : ∀ c ∈ merge base path, p c := by
  unfold merge
  split
  · exact List.forall_mem_cons.2 ⟨hslash, h⟩
  · obtain ⟨last, hlast⟩ := exists_directory_append base.path
    rw [← hlast] at hbase
    exact List.forall_mem_append.2 ⟨(List.forall_mem_append.1 hbase).1, h⟩

theorem head?_merge {base : Reference} (hauthority : base.authority ≠ none)
    (hbase : base.path = [] ∨ base.path.head? = some '/') :
    (merge base path).head? = some '/' := by
  obtain ⟨name, hname⟩ := Option.ne_none_iff_exists'.1 hauthority
  obtain hempty | hrooted := hbase
  · simp [merge, hname, hempty]
  · have hne : base.path ≠ [] := by
      intro he
      simp [he] at hrooted
    simp [merge, hname, hne, List.head?_append, head?_directory hrooted]

end Path

namespace Reference

variable {base r : Reference}

/-- Whether a base and a reference make up a path without a slash at its front of which two dots
take back the first segment. -/
def LosesSlash (base r : Reference) : Prop :=
  r.authority = none ∧ r.path ≠ [] ∧ r.path.head? ≠ some '/' ∧
    (Path.merge base r.path).head? ≠ some '/' ∧
    Path.losesFirst 0 (Path.segments (Path.merge base r.path)) = true

instance (base r : Reference) : Decidable (LosesSlash base r) := by
  unfold LosesSlash
  infer_instance

/-! ### The transformation -/

theorem scheme_split_eq_none {text : List Char} (h : hasScheme text = false) :
    (split text).scheme = none := by
  have hnone : takeScheme? text = none := by simpa [hasScheme] using h
  simp [split, cutScheme, hnone]

theorem merge_eq (base : Reference) (path : List Char) :
    Standard.merge base path = Path.merge base path := by
  obtain ⟨_, authority, bpath, _, _⟩ := base
  cases authority <;> cases bpath <;> simp [Standard.merge, Path.merge] <;> rfl

theorem recompose_eq (t : Reference) : Standard.recompose t = t.unsplit := by
  obtain ⟨scheme, authority, path, query, fragment⟩ := t
  cases scheme <;> cases authority <;> cases query <;> cases fragment <;> rfl

theorem standard_removeDots {path : List Char} (h : path = [] ∨ path.head? = some '/') :
    Standard.removeDots path = Path.removeDots path := by
  obtain rfl | hrooted := h
  · simp [Standard.removeDots, Standard.moveSegments, Path.removeDots]
  · obtain ⟨relative, rfl⟩ := List.head?_eq_some_iff.1 hrooted
    exact Standard.removeDots_rooted relative

theorem transform_standard (hscheme : r.scheme = none) (hr : r.Separated)
    (h : ¬ LosesSlash base r) : Standard.transform base r = base.transform r := by
  obtain ⟨scheme, authority, path, query, fragment⟩ := r
  obtain rfl : scheme = none := hscheme
  cases authority with
  | some name =>
    have hdots := standard_removeDots (hr.rooted (Option.some_ne_none name))
    simpa [Standard.transform, transform] using hdots
  | none =>
    by_cases hempty : path = []
    · cases query <;> simp [Standard.transform, transform, hempty]
    · by_cases hrooted : path.head? = some '/'
      · have hdots := standard_removeDots (Or.inr hrooted)
        simp [Standard.transform, transform, hempty, hrooted, hdots]
      · have hdots : Standard.removeDots (Path.merge base path) =
            Path.removeDots (Path.merge base path) := by
          by_cases hmerged : (Path.merge base path).head? = some '/'
          · exact standard_removeDots (Or.inr hmerged)
          · have hkeeps : Path.losesFirst 0 (Path.segments (Path.merge base path)) = false := by
              simpa [LosesSlash, hempty, hrooted, hmerged] using h
            simp [Standard.removeDots_rootless hmerged, hkeeps]
        simp [Standard.transform, transform, hempty, hrooted, merge_eq, hdots]

theorem transform_losesSlash (hscheme : r.scheme = none) (h : LosesSlash base r) :
    Standard.transform base r =
      { base.transform r with path := '/' :: (base.transform r).path } := by
  obtain ⟨scheme, authority, path, query, fragment⟩ := r
  obtain rfl : scheme = none := hscheme
  obtain ⟨rfl, hempty, hrooted, hmerged, hloses⟩ := h
  have hdots := Standard.removeDots_rootless hmerged
  simp only at hempty hrooted hdots hloses
  simp [Standard.transform, transform, hempty, hrooted, merge_eq, hdots, hloses]

theorem not_losesSlash (hauthority : base.authority ≠ none) (hbase : base.Separated) :
    ¬ LosesSlash base r :=
  fun h => h.2.2.2.1 (Path.head?_merge hauthority (hbase.rooted hauthority))

/-! ### The components of a target -/

theorem authority_transform (base r : Reference) :
    (base.transform r).authority = if r.authority = none then base.authority else r.authority := by
  obtain ⟨_, authority, path, _, _⟩ := r
  cases authority <;> cases path <;> simp [transform]

theorem ends_transform (hbase : base.Separated) (hr : r.Separated) :
    ∀ c ∈ (base.transform r).path, endsPath c = false := by
  unfold transform
  split
  · exact Path.forall_mem_removeDots rfl hr.path
  · split
    · exact hbase.path
    · refine Path.forall_mem_removeDots rfl ?_
      split
      · exact hr.path
      · exact Path.forall_mem_merge rfl hbase.path hr.path

theorem query_transform (hbase : base.Separated) (hr : r.Separated) :
    ∀ query ∈ (base.transform r).query, '#' ∉ query := by
  unfold transform
  split
  · exact hr.query
  · split
    · simp only
      split
      · exact hr.query
      · exact hbase.query
    · exact hr.query

theorem rooted_transform (hbase : base.Separated) (hr : r.Separated)
    (h : (base.transform r).authority ≠ none) :
    (base.transform r).path = [] ∨ (base.transform r).path.head? = some '/' := by
  unfold transform at h ⊢
  split at h
  · next hauthority =>
    rw [if_pos hauthority]
    obtain hempty | hrooted := hr.rooted h
    · exact Or.inl (by simp [hempty, Path.removeDots])
    · exact Or.inr (Path.head?_removeDots hrooted)
  · next hauthority =>
    rw [if_neg hauthority]
    split at h
    · next hempty =>
      rw [if_pos hempty]
      exact hbase.rooted h
    · next hempty =>
      rw [if_neg hempty]
      refine Or.inr (Path.head?_removeDots ?_)
      split
      · assumption
      · exact Path.head?_merge h (hbase.rooted h)

/-- A target is separated unless a path comes to stand where an authority is read. -/
theorem separated_transform (hscheme : base.scheme ≠ none) (hbase : base.Separated)
    (hr : r.Separated)
    (hsingle : (base.transform r).authority = none → ¬ ['/', '/'] <+: (base.transform r).path) :
    (base.transform r).Separated where
  scheme := by rw [scheme_transform]; exact hbase.scheme
  authority := by
    rw [authority_transform]
    split
    · exact hbase.authority
    · exact hr.authority
  path := ends_transform hbase hr
  query := query_transform hbase hr
  rooted := rooted_transform hbase hr
  single := hsingle
  relative hnone := absurd (by rwa [scheme_transform] at hnone) hscheme

/-- Two slashes at the front of a path are read as the mark of an authority. -/
theorem split_unsplit_of_slashes {t : Reference} {rest : List Char} (hscheme : t.scheme ≠ none)
    (hform : ∀ name ∈ t.scheme, IsScheme name) (hnone : t.authority = none)
    (hpath : t.path = '/' :: '/' :: rest) (hends : ∀ c ∈ t.path, endsPath c = false)
    (hquery : ∀ query ∈ t.query, '#' ∉ query) :
    split t.unsplit = { t with
      authority := some (rest.takeWhile (· != '/'))
      path := rest.dropWhile (· != '/') } := by
  let read : Reference := { t with
    authority := some (rest.takeWhile (· != '/'))
    path := rest.dropWhile (· != '/') }
  have hrest : ∀ c ∈ rest, endsPath c = false := fun c hc =>
    hends c (by simp [hpath, hc])
  have hread : read.Separated := by
    refine ⟨hform, ?_, ?_, hquery, fun _ => ?_, fun h => absurd h (Option.some_ne_none _),
      fun h => absurd h hscheme⟩
    · rintro name ⟨⟩ c hc
      have hslash : (c != '/') = true := List.all_eq_true.1 List.all_takeWhile c hc
      have hmark := hrest c ((List.takeWhile_prefix _).subset hc)
      simp only [endsPath, endsAuthority, Bool.or_eq_false_iff] at hmark ⊢
      exact ⟨⟨by simpa using hslash, hmark.1⟩, hmark.2⟩
    · exact fun c hc => hrest c ((List.dropWhile_suffix _).subset hc)
    · have hhead := head?_dropWhile_all (· == '/') rest
      cases hdrop : read.path with
      | nil => exact Or.inl rfl
      | cons c after =>
        have hslash : read.path.head?.all (· == '/') = true := hhead
        exact Or.inr (by simpa [hdrop] using hslash)
  have htext : read.unsplit = t.unsplit := by
    simp [read, unsplit, authorityText, hnone, hpath]
  rw [← htext, split_unsplit_of_separated hread]

theorem unsplit_of_authority {t : Reference} {scheme : List Char} (hscheme : t.scheme = some scheme)
    (h : t.authority = none) : t.unsplit =
      scheme ++ ':' :: (t.path ++ (markedText '?' t.query ++ markedText '#' t.fragment)) := by
  simp [unsplit, hscheme, h, schemeText, authorityText]

end Reference

open Reference

variable {base text : List Char}

theorem resolveText_eq (htext : hasScheme text = false) :
    resolveText base text = ((split base).transform (split text)).unsplit := by
  rw [resolveText, if_neg (by simp [htext])]

/-! ### Bases with an authority -/

/-- Against a base with an authority, resolution is the transformation of the generic syntax, and
the components of the target are read back from its text. -/
theorem resolveText_eq_recompose (base text : List Char) :
    (hasScheme text = true → resolveText base text = text) ∧
    (hasScheme base = true → (split base).authority ≠ none → hasScheme text = false →
      resolveText base text =
          Standard.recompose (Standard.transform (split base) (split text)) ∧
        split (resolveText base text) = Standard.transform (split base) (split text) ∧
        hasScheme (resolveText base text) = true) := by
  refine ⟨fun htext => if_pos htext, fun hbase hauthority htext => ?_⟩
  have hsame : Standard.transform (split base) (split text) =
      (split base).transform (split text) :=
    transform_standard (scheme_split_eq_none htext) (separated_split text)
      (not_losesSlash hauthority (separated_split base))
  have hsome : ((split base).transform (split text)).authority ≠ none := by
    rw [authority_transform]
    split
    · exact hauthority
    · assumption
  obtain ⟨name, hname, -⟩ := scheme_split hbase
  have hseparated := separated_transform (by simp [hname]) (separated_split base)
    (separated_split text) fun hnone => absurd hnone hsome
  refine ⟨?_, ?_, hasScheme_resolveText hbase text⟩
  · rw [hsame, recompose_eq, resolveText_eq htext]
  · rw [hsame, resolveText_eq htext, split_unsplit_of_separated hseparated]

theorem resolveText_eq_recompose_parents :
    let base := "http://a/b/c/d;p?q".toList
    let text := "../../../g;x=1/./?y#s".toList
    resolveText base text = Standard.recompose (Standard.transform (split base) (split text)) ∧
      split (resolveText base text) = Standard.transform (split base) (split text) ∧
      hasScheme (resolveText base text) = true ∧
      resolveText base "urn:a/../b".toList = "urn:a/../b".toList := by
  intro base text
  obtain ⟨hsame, hsplit, hscheme⟩ := (resolveText_eq_recompose base text).2
    (by decide) (by decide) (by decide)
  exact ⟨hsame, hsplit, hscheme, (resolveText_eq_recompose base _).1 (by decide)⟩

/-! ### Bases without an authority -/

/-- Where the first segment of a path is taken back, resolution leaves out the slash that the
generic syntax has behind the scheme. -/
theorem resolveText_of_losesSlash (hbase : hasScheme base = true)
    (hauthority : (split base).authority = none) (htext : hasScheme text = false)
    (h : LosesSlash (split base) (split text)) :
    ∃ scheme rest, (split base).scheme = some scheme ∧
      resolveText base text = scheme ++ ':' :: rest ∧
      Standard.resolve base text = scheme ++ ':' :: '/' :: rest := by
  obtain ⟨scheme, hscheme, -⟩ := scheme_split hbase
  have htarget : ((split base).transform (split text)).scheme = some scheme := by
    rw [scheme_transform, hscheme]
  have hnone : ((split base).transform (split text)).authority = none := by
    rw [authority_transform, if_pos h.1, hauthority]
  have hours := unsplit_of_authority htarget hnone
  refine ⟨scheme, _, hscheme, (resolveText_eq htext).trans hours, ?_⟩
  rw [Standard.resolve, transform_losesSlash (scheme_split_eq_none htext) h, recompose_eq]
  exact unsplit_of_authority htarget hnone

/-- Against a base without an authority, resolution is the transformation of the generic syntax
unless the first segment of a path is taken back, and then a slash is missing. -/
theorem resolveText_eq_resolve_iff (hbase : hasScheme base = true)
    (hauthority : (split base).authority = none) (htext : hasScheme text = false) :
    (resolveText base text = Standard.resolve base text ↔
      ¬ LosesSlash (split base) (split text)) ∧
    (LosesSlash (split base) (split text) → ∃ scheme rest, (split base).scheme = some scheme ∧
      resolveText base text = scheme ++ ':' :: rest ∧
      Standard.resolve base text = scheme ++ ':' :: '/' :: rest) := by
  have hloses := resolveText_of_losesSlash hbase hauthority htext
  refine ⟨⟨fun hsame h => ?_, fun h => ?_⟩, hloses⟩
  · obtain ⟨scheme, rest, -, hours, htheirs⟩ := hloses h
    have hlength := congrArg List.length (hours.symm.trans (hsame.trans htheirs))
    simp at hlength
  · rw [Standard.resolve, recompose_eq, resolveText_eq htext,
      transform_standard (scheme_split_eq_none htext) (separated_split text) h]

/-- Two dots take back the last segment that is kept, and then the only one. -/
theorem resolveText_eq_resolve_iff_parents :
    resolveText "urn:a/b/c".toList "../d".toList =
        Standard.resolve "urn:a/b/c".toList "../d".toList ∧
      ∃ scheme rest, resolveText "urn:a/b/c".toList "../../d".toList = scheme ++ ':' :: rest ∧
        Standard.resolve "urn:a/b/c".toList "../../d".toList = scheme ++ ':' :: '/' :: rest := by
  have hbase : hasScheme "urn:a/b/c".toList = true := by decide
  have hnone : (split "urn:a/b/c".toList).authority = none := by decide
  have hparent : hasScheme "../d".toList = false := by decide
  have hparents : hasScheme "../../d".toList = false := by decide
  refine ⟨(resolveText_eq_resolve_iff hbase hnone hparent).1.2 (by decide), ?_⟩
  obtain ⟨scheme, rest, -, hours, htheirs⟩ :=
    (resolveText_eq_resolve_iff hbase hnone hparents).2 (by decide)
  exact ⟨scheme, rest, hours, htheirs⟩

/-- The generic syntax has a slash behind the scheme where resolution has none. -/
theorem resolveText_first_taken :
    hasScheme "urn:a/b".toList = true ∧ (split "urn:a/b".toList).authority = none ∧
      hasScheme "../c".toList = false ∧
      resolveText "urn:a/b".toList "../c".toList = "urn:c".toList ∧
      Standard.resolve "urn:a/b".toList "../c".toList = "urn:/c".toList ∧
      resolveText "urn:a/b".toList "../c".toList ≠
        Standard.resolve "urn:a/b".toList "../c".toList := by
  have hours : resolveText "urn:a/b".toList "../c".toList = "urn:c".toList := by decide
  have htheirs : Standard.resolve "urn:a/b".toList "../c".toList = "urn:/c".toList := by cbv
  refine ⟨by decide, by decide, by decide, hours, htheirs, ?_⟩
  rw [hours, htheirs]
  decide

/-! ### Authorities -/

theorem split_resolveText_of_slashes {rest : List Char} (hbase : hasScheme base = true)
    (htext : hasScheme text = false) (hnone : (split text).authority = none)
    (hauthority : (split base).authority = none)
    (hpath : ((split base).transform (split text)).path = '/' :: '/' :: rest) :
    split (resolveText base text) = { (split base).transform (split text) with
      authority := some (rest.takeWhile (· != '/'))
      path := rest.dropWhile (· != '/') } := by
  obtain ⟨scheme, hscheme, hform⟩ := scheme_split hbase
  have htarget : ((split base).transform (split text)).scheme = some scheme := by
    rw [scheme_transform, hscheme]
  rw [resolveText_eq htext]
  refine split_unsplit_of_slashes (by simp [htarget]) (by simpa [htarget] using hform) ?_ hpath
    (ends_transform (separated_split base) (separated_split text))
    (query_transform (separated_split base) (separated_split text))
  rw [authority_transform, if_pos hnone, hauthority]

/-- What has no authority of its own is resolved to what has that of the base, unless the base has
none and the path of the target has two slashes at its front. The authority is then read behind
them. -/
theorem authority_resolveText (hbase : hasScheme base = true) (htext : hasScheme text = false)
    (hnone : (split text).authority = none) :
    (split (resolveText base text)).scheme = (split base).scheme ∧
    ((split (resolveText base text)).authority = (split base).authority ↔
      ¬ ((split base).authority = none ∧
        ['/', '/'] <+: ((split base).transform (split text)).path)) ∧
    ∀ rest, (split base).authority = none →
      ((split base).transform (split text)).path = '/' :: '/' :: rest →
      (split (resolveText base text)).authority = some (rest.takeWhile (· != '/')) := by
  have hslashes := @split_resolveText_of_slashes base text
  have hread : ∀ rest, (split base).authority = none →
      ((split base).transform (split text)).path = '/' :: '/' :: rest →
      (split (resolveText base text)).authority = some (rest.takeWhile (· != '/')) := by
    intro rest hauthority hpath
    rw [hslashes hbase htext hnone hauthority hpath]
  by_cases h : (split base).authority = none ∧
      ['/', '/'] <+: ((split base).transform (split text)).path
  · obtain ⟨hauthority, rest, hpath⟩ := h
    refine ⟨?_, iff_of_false ?_ (not_not_intro ⟨hauthority, rest, hpath⟩), hread⟩
    · rw [hslashes hbase htext hnone hauthority hpath.symm]
      exact scheme_transform _ _
    · rw [hread rest hauthority hpath.symm, hauthority]
      exact Option.some_ne_none _
  · obtain ⟨scheme, hscheme, -⟩ := scheme_split hbase
    have hsame : ((split base).transform (split text)).authority = (split base).authority := by
      rw [authority_transform, if_pos hnone]
    have hseparated := separated_transform (by simp [hscheme]) (separated_split base)
      (separated_split text) fun hauthority hslashed => h ⟨hsame.symm.trans hauthority, hslashed⟩
    have htarget : split (resolveText base text) = (split base).transform (split text) := by
      rw [resolveText_eq htext, split_unsplit_of_separated hseparated]
    exact ⟨by rw [htarget, scheme_transform], iff_of_true (by rw [htarget, hsame]) h, hread⟩

theorem authority_resolveText_slashes :
    (split (resolveText "http://h/a".toList ".//b".toList)).authority =
        (split "http://h/a".toList).authority ∧
      (split (resolveText "urn:/a".toList ".//b/c".toList)).authority = some ['b'] := by
  refine ⟨(authority_resolveText (by decide) (by decide) (by decide)).2.1.2 (by decide), ?_⟩
  exact (authority_resolveText (by decide) (by decide) (by decide)).2.2 ['b', '/', 'c'] (by decide)
    (by decide)

/-- An authority comes out of a base and a reference that have none, in the generic syntax, too. -/
theorem authority_read_from_path :
    hasScheme "urn:/a".toList = true ∧ (split "urn:/a".toList).authority = none ∧
      hasScheme ".//b".toList = false ∧ (split ".//b".toList).authority = none ∧
      resolveText "urn:/a".toList ".//b".toList =
        Standard.resolve "urn:/a".toList ".//b".toList ∧
      (split (resolveText "urn:/a".toList ".//b".toList)).authority = some ['b'] := by
  have hsame : Standard.resolve "urn:/a".toList ".//b".toList = "urn://b".toList := by cbv
  refine ⟨by decide, by decide, by decide, by decide, ?_, by decide⟩
  rw [hsame]
  decide

end Rdf

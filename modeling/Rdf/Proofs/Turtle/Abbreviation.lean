import Rdf.Proofs.Document.Spelling
import Rdf.Proofs.Turtle.Meaning
import Rdf.Turtle.Printer

/-!
Identifiers and literals are abbreviated so that they read back.

An identifier is written by a name that stands for it where the namespaces are bound, and a literal
as a constant that stands for it, in quotes or without.
-/

namespace Rdf.Turtle

open Text Scan

variable {spaces : Spaces} {base : Option Iri} {options : Options} {name : Iri} {l : Literal}
  {text : List Char} {i : Interpretation String}

/-! ### Identifiers -/

/-- The namespaces can be declared, and their labels are different. -/
structure Declarable (spaces : Spaces) : Prop where
  labels : ∀ space ∈ spaces, isSpaceLabel space.1.toList = true
  nodup : (spaces.map (·.1)).Nodup

theorem foldl_longer {found : Nat × List Char} {all : List (Nat × List Char)}
    {best : Option (Nat × List Char)} (h : all.foldl longer best = some found) :
    best = some found ∨ found ∈ all := by
  induction all generalizing best with
  | nil => exact .inl h
  | cons first rest ih =>
    obtain hbest | hrest := ih h
    · have hcases : first = found ∨ best = some found := by
        cases best with
        | none => exact .inl (Option.some.inj hbest)
        | some old =>
          by_cases hlt : old.1 < first.1
          · exact .inl (by simpa [longer, hlt] using hbest)
          · exact .inr (by simpa [longer, hlt] using hbest)
      obtain rfl | hold := hcases
      · exact .inr List.mem_cons_self
      · exact .inl hold
    · exact .inr (List.mem_cons_of_mem first hrest)

/-- A name in scope, written in a text, that stands for an identifier. -/
structure Stands (scope : Scope) (text : List Char) (n : Name) (name : Iri) : Prop where
  spells : Spells text [n.lexeme]
  inScope : n.InScope scope
  iri : scope.iri n = name

theorem nameIn_stands (h : Declarable spaces) {space : String × Iri} (hspace : space ∈ spaces)
    {length : Nat} (hname : nameIn name space = some (length, text)) (base : Option Iri) :
    ∃ n, Stands ⟨base, spaces⟩ text n name := by
  by_cases hprefix : space.2.value.toList.isPrefixOf name.value.toList = true
  · obtain ⟨rest, hrest⟩ := List.isPrefixOf_iff_prefix.1 hprefix
    rw [nameIn, if_pos hprefix, ← hrest, List.drop_left] at hname
    obtain ⟨written, hescape, hpair⟩ := Option.map_eq_some_iff.1 hname
    obtain ⟨-, rfl⟩ := Prod.mk.inj hpair
    rw [← String.toList_ofList (l := rest)] at hescape
    refine ⟨.short space.1 (String.ofList rest), .name (h.labels space hspace) hescape,
      List.mem_map_of_mem hspace, ?_⟩
    have hvalue : space.2.value ++ String.ofList rest = name.value := by
      rw [← String.toList_inj, String.toList_append, String.toList_ofList, hrest]
    simp only [Scope.iri, lookup_of_mem h.nodup hspace, Option.elim, hvalue]
  · simp [nameIn, hprefix] at hname

/-- An absolute identifier is written by a name that stands for it. -/
theorem iri_stands (h : Declarable spaces) (habsolute : name.isAbsolute = true)
    (base : Option Iri) : ∃ n, Stands ⟨base, spaces⟩ (iri spaces name) n name := by
  unfold iri
  split
  · next length text hbest =>
    obtain hnone | hmem := foldl_longer hbest
    · simp at hnone
    · obtain ⟨space, hspace, hname⟩ := List.mem_filterMap.1 hmem
      exact nameIn_stands h hspace hname base
  · have hscheme : hasScheme name.value.toList = true := habsolute
    exact ⟨.iri name.value, .iri name.value, .inl hscheme, by simp [Scope.iri, hscheme]⟩

theorem predicate_stands (h : Declarable spaces) (habsolute : name.isAbsolute = true)
    (hi : i.iri = (Scope.mk base spaces).iri) :
    ∃ verb : Verb, Spells (predicate spaces name) [verb.lexeme] ∧
      (∀ n ∈ verb.names, n.InScope ⟨base, spaces⟩) ∧ verb.iri i = name := by
  by_cases htype : name = Vocabulary.type
  · refine ⟨.a, ?_, by simp [Verb.names], htype.symm⟩
    rw [predicate, if_pos htype]
    exact .keyword (by decide) (by simp) (by decide) rfl
  · obtain ⟨n, hn⟩ := iri_stands h habsolute base
    refine ⟨.name n, ?_, by simpa [Verb.names] using hn.inScope, ?_⟩
    · rw [predicate, if_neg htype]
      exact hn.spells
    · rw [Verb.iri, hi, hn.iri]

/-! ### Literals -/

theorem checkLiteral_eq_ok (h : Spelling.checkLiteral l = .ok ()) :
    (l.language = none ∨ l.datatype = none) ∧
      ∀ tag ∈ l.language, isLanguageTag tag.toList = true := by
  obtain ⟨value, language, datatype⟩ := l
  cases language with
  | none => simp
  | some tag =>
    cases datatype with
    | some _ => simp [Spelling.checkLiteral] at h
    | none =>
      by_cases htag : isLanguageTag tag.toList = true
      · simp [htag]
      · simp [Spelling.checkLiteral, htag] at h

/-- A value without quotes is a word or fits the notation of its datatype. -/
theorem isShort_cases {value : List Char} {datatype : Iri} (h : isShort value datatype = true) :
    (datatype = Vocabulary.boolean ∧ (value = "true".toList ∨ value = "false".toList)) ∨
      ∃ kind, datatype = numberType kind ∧ Pattern.fits (.ofKind kind) value = true := by
  unfold isShort at h
  split at h
  · next hboolean =>
    refine .inl ⟨hboolean, ?_⟩
    simpa only [Bool.or_eq_true, decide_eq_true_eq] using h
  split at h
  · next hinteger => exact .inr ⟨.integer, hinteger, h⟩
  split at h
  · next hdecimal => exact .inr ⟨.decimal, hdecimal, h⟩
  split at h
  · next hdouble => exact .inr ⟨.double, hdouble, h⟩
  · simp at h

/-- A constant in scope, written in a text, that stands for a literal. -/
structure Denotes (scope : Scope) (text : List Char) (constant : Constant) (l : Literal) :
    Prop where
  spells : Spells text constant.lexemes
  inScope : ∀ n ∈ constant.names, n.InScope scope
  literal : ∀ i : Interpretation String, i.iri = scope.iri → constant.literal i = l

theorem short_denotes {datatype : Iri} (hlanguage : l.language = none)
    (hdatatype : l.datatype = some datatype) (hshort : isShort l.value.toList datatype = true)
    (scope : Scope) : ∃ constant, Denotes scope l.value.toList constant l := by
  obtain ⟨value, language, _⟩ := l
  obtain rfl : language = none := hlanguage
  obtain rfl : _ = some datatype := hdatatype
  obtain ⟨rfl, hword⟩ | ⟨kind, rfl, hfits⟩ := isShort_cases hshort
  · have hwords : ∀ word ∈ ["true", "false"], isSpaceLabel word.toList = true ∧
        word.toList ≠ [] ∧ Lexeme.keyword? word.toList = some (.boolean word) := by
      decide
    have hmem : value ∈ ["true", "false"] := by
      simpa only [String.toList_inj, List.mem_cons, List.not_mem_nil, or_false] using hword
    obtain ⟨hlabel, hne, hkeyword⟩ := hwords value hmem
    exact ⟨.boolean value, .keyword hlabel hne hkeyword rfl, by simp [Constant.names],
      fun _ _ => rfl⟩
  · exact ⟨.number kind value, .number hfits, by simp [Constant.names], fun _ _ => rfl⟩

theorem quoted_denotes (h : Declarable spaces) (hcheck : Spelling.checkLiteral l = .ok ())
    (habsolute : ∀ datatype ∈ l.datatype, datatype.isAbsolute = true) (base : Option Iri) :
    ∃ constant, Denotes ⟨base, spaces⟩ (Spelling.literal l (iri spaces)) constant l := by
  obtain ⟨hsingle, htag⟩ := checkLiteral_eq_ok hcheck
  obtain ⟨value, language, datatype⟩ := l
  cases language with
  | some tag =>
    obtain rfl : datatype = none := by simpa using hsingle
    have hspells := @Spells.literal ⟨value, some tag, none⟩ hsingle htag (iri spaces)
      (fun name => .iri name.value) (by simp)
    exact ⟨.string "\"" value (.language tag), hspells, by simp [Constant.names, Suffix.names],
      fun _ _ => rfl⟩
  | none =>
    cases datatype with
    | none =>
      have hspells := @Spells.literal ⟨value, none, none⟩ hsingle htag (iri spaces)
        (fun name => .iri name.value) (by simp)
      exact ⟨.string "\"" value .nothing, hspells, by simp [Constant.names, Suffix.names],
        fun _ _ => rfl⟩
    | some name =>
      obtain ⟨n, hn⟩ := iri_stands h (habsolute name rfl) base
      have hspells := @Spells.literal ⟨value, none, some name⟩ hsingle htag (iri spaces)
        (fun _ => n.lexeme) (by simpa using hn.spells)
      refine ⟨.string "\"" value (.datatype n), hspells,
        by simpa [Constant.names, Suffix.names] using hn.inScope, fun i hi => ?_⟩
      simp only [Constant.literal, hi, hn.iri]

/-- A literal with an absolute datatype is written as a constant that stands for it. -/
theorem literal_denotes (h : Declarable spaces) (hwritten : literal options spaces l = .ok text)
    (habsolute : ∀ datatype ∈ l.datatype, datatype.isAbsolute = true) (base : Option Iri) :
    ∃ constant, Denotes ⟨base, spaces⟩ text constant l := by
  rw [literal] at hwritten
  obtain ⟨_, hcheck, hwritten⟩ := bind_eq_ok.1 hwritten
  by_cases hshort : (options.shortLiterals && l.datatype.any (isShort l.value.toList)) = true
  · rw [if_pos hshort] at hwritten
    obtain rfl := Except.ok.inj hwritten
    obtain ⟨datatype, hdatatype, hvalue⟩ :=
      Option.any_eq_true _ _ |>.1 (Bool.and_eq_true_iff.1 hshort).2
    have hlanguage : l.language = none := by
      simpa [hdatatype] using (checkLiteral_eq_ok hcheck).1
    exact short_denotes hlanguage hdatatype hvalue ⟨base, spaces⟩
  · rw [if_neg hshort] at hwritten
    obtain rfl := Except.ok.inj hwritten
    exact quoted_denotes h hcheck habsolute base

end Rdf.Turtle

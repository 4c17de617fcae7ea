import Rdf.Proofs.Document.Spelling
import Rdf.Proofs.Turtle.Meaning
import Rdf.Turtle.Printer

/-!
Directives are read back.

The header of a document binds the namespaces of a graph and sets its base, so that the statements
behind it are in the scope that they were written for.
-/

namespace Rdf.Turtle

open Text Scan

variable {options : Options} {g : Graph} {base : Option Iri} {spaces : Spaces}
  {rest : List Char} {later : List Lexeme}

/-! ### Directives -/

/-- The word behind the at sign of a directive. -/
def directiveWord : Declares → String
  | .label => "prefix"
  | .base => "base"

/-- The directive that is written with an at sign. -/
def atDirective (declares : Declares) : Directive :=
  ⟨declares, "@" ++ directiveWord declares, true⟩

theorem lexes_directive (declares : Declares) (h : Lexes false rest later) :
    Lexes false ('@' :: (directiveWord declares).toList ++ ' ' :: rest)
      (.directive (atDirective declares) :: later) := by
  have hword : isLanguageTag (directiveWord declares).toList = true := by
    cases declares <;> decide
  have htag := Pattern.languageTag_append hword (AtSeparator.cons (by decide : ' ' ∈ separators) rest)
  have hboundary : atBoundary (' ' :: rest) = true := rfl
  have hscan : Lexeme.scanAtWord false ((directiveWord declares).toList ++ ' ' :: rest) =
      .ok (.directive (atDirective declares), ' ' :: rest) := by
    simp only [Lexeme.scanAtWord, htag, String.ofList_toList, hboundary]
    cases declares <;> rfl
  refine .cons (Reads.skipLayout_cons rfl (by decide)) ?_ (h.layout (c := ' ') rfl)
  simpa [Lexeme.scan] using hscan

theorem lexes_space (h : Lexes false rest later) : Lexes false (' ' :: rest) later := h.layout rfl

theorem lexes_dot (h : Lexes false rest later) :
    Lexes false (' ' :: '.' :: '\n' :: rest) (.punct .dot :: later) := by
  have hfeed : Lexes false ('\n' :: rest) later := h.layout rfl
  exact lexes_space (Reads.punct .dot (fun _ => .cons (by decide) _) hfeed false)

theorem baseLine_lexes (iri : Iri) (h : Lexes false rest later) :
    Lexes false (baseLine iri ++ '\n' :: rest)
      ((.base "@base" true iri.value : Statement String).lexemes ++ later) := by
  have hiri := Reads.iri iri.value (lexes_dot h) false
  have hall := lexes_directive .base hiri
  have hline : baseLine iri = '@' :: (directiveWord .base).toList ++ ' ' ::
      (Spelling.iriRef iri.value ++ [' ', '.']) := rfl
  rw [hline]
  simpa [Statement.lexemes, directiveEnd, atDirective, directiveWord] using hall

theorem spaceLine_lexes {space : String × Iri} (hlabel : isSpaceLabel space.1.toList = true)
    (h : Lexes false rest later) :
    Lexes false (spaceLine space ++ '\n' :: rest)
      ((.space "@prefix" true space.1 space.2.value : Statement String).lexemes ++ later) := by
  have hiri := (Reads.iri space.2.value (lexes_dot h)).space
  have hspells : Spells (space.1.toList ++ [':']) [.name space.1 ""] := .name hlabel rfl
  have hname := hspells (AtSeparator.cons (by decide : ' ' ∈ separators) _) hiri
  have hall := lexes_directive .label (hname false)
  have hline : spaceLine space = '@' :: (directiveWord .label).toList ++ ' ' ::
      (space.1.toList ++ ':' :: ' ' :: (Spelling.iriRef space.2.value ++ [' ', '.'])) := by
    delta spaceLine
    simp [directiveWord]
  rw [hline]
  simpa [Statement.lexemes, directiveEnd, atDirective, directiveWord] using hall

def writtenBase (options : Options) (g : Graph) : Option Iri :=
  if options.writesBase then g.base else none

def directives (base : Option Iri) (spaces : Spaces) : Document String :=
  (base.toList.map fun iri => .base "@base" true iri.value) ++
    spaces.map fun space => .space "@prefix" true space.1 space.2.value

def directiveLines (base : Option Iri) (spaces : Spaces) : List (List Char) :=
  base.toList.map baseLine ++ spaces.map spaceLine

theorem directiveLines_lex (base : Option Iri)
    (hspaces : ∀ space ∈ spaces, isSpaceLabel space.1.toList = true) (h : Lexes false rest later) :
    Lexes false (unlines (directiveLines base spaces) ++ rest)
      ((directives base spaces).lexemes ++ later) := by
  have hall : Lexes false (unlines (directiveLines none spaces) ++ rest)
      ((directives none spaces).lexemes ++ later) := by
    induction spaces with
    | nil => exact h
    | cons space spaces ih =>
      obtain ⟨hspace, hspaces⟩ := List.forall_mem_cons.1 hspaces
      have hboth := spaceLine_lexes hspace (ih hspaces)
      simpa [unlines, directiveLines, directives, Document.lexemes] using hboth
  cases base with
  | none => exact hall
  | some iri =>
    have hboth := baseLine_lexes iri hall
    simpa [unlines, directiveLines, directives, Document.lexemes] using hboth

theorem isSpaceLabel_of_mem {space : String × Iri} (h : space ∈ writtenSpaces options g) :
    isSpaceLabel space.1.toList = true := by
  by_cases hw : options.writesLabels = true
  · simp only [writtenSpaces, hw, if_true] at h
    exact (List.mem_filter.1 h).2
  · simp [writtenSpaces, hw] at h

/-- The header of a document reads as its directives. -/
theorem header_lexes (h : Reads rest later) :
    Lexes false (unlines (header options g) ++ rest)
      ((directives (writtenBase options g) (writtenSpaces options g)).lexemes ++ later) := by
  let lines := directiveLines (writtenBase options g) (writtenSpaces options g)
  have hheader : header options g = if lines.isEmpty then [] else lines ++ [[]] := by
    by_cases hw : options.writesBase = true <;>
      simp [header, lines, directiveLines, writtenBase, hw]
  have hlabels : ∀ space ∈ writtenSpaces options g, isSpaceLabel space.1.toList = true :=
    fun _ hspace => isSpaceLabel_of_mem hspace
  by_cases hempty : lines.isEmpty = true
  · have hall := directiveLines_lex (writtenBase options g) hlabels (h false)
    have hnil : directiveLines (writtenBase options g) (writtenSpaces options g) = [] := by
      simpa [lines] using hempty
    rw [hheader, if_pos hempty, ← hnil]
    exact hall
  · have hfeed : Reads ('\n' :: rest) later := h.layout rfl
    have hall := directiveLines_lex (writtenBase options g) hlabels (hfeed false)
    rw [hheader, if_neg hempty]
    simpa [unlines, lines] using hall

/-! ### Scopes -/

theorem Document.inScope_append (first second : Document String) (scope : Scope) :
    (first ++ second).InScope scope ↔
      first.InScope scope ∧ second.InScope (first.scopeAfter scope) := by
  induction first generalizing scope with
  | nil => simp [InScope, scopeAfter]
  | cons statement first ih =>
    have hrest := ih (statement.scopeAfter scope)
    simp only [List.cons_append, InScope, hrest, scopeAfter, List.foldl_cons, and_assoc]

theorem Document.triples_append (first second : Document String) (label node : String → String)
    (scope : Scope) : Document.triples label node scope (first ++ second) =
      first.triples label node scope ++ second.triples label node (first.scopeAfter scope) := by
  induction first generalizing scope with
  | nil => rfl
  | cons statement first ih =>
    simp only [List.cons_append, triples, ih, scopeAfter, List.foldl_cons, List.append_assoc]

theorem Scope.iri_of_isAbsolute (scope : Scope) {iri : Iri} (h : iri.isAbsolute = true) :
    scope.iri (.iri iri.value) = iri := if_pos h

theorem bindIn_new {label : String} (h : label ∉ spaces.map (·.1)) (iri : Iri) :
    Graph.bindIn label iri spaces = spaces ++ [(label, iri)] := by
  induction spaces with
  | nil => rfl
  | cons space spaces ih =>
    simp only [List.map_cons, List.mem_cons, not_or] at h
    rw [Graph.bindIn, if_neg (Ne.symm h.1), ih h.2]
    rfl

theorem nodup_bindIn (h : (spaces.map (·.1)).Nodup) (label : String) (iri : Iri) :
    ((Graph.bindIn label iri spaces).map (·.1)).Nodup := by
  by_cases hmem : label ∈ spaces.map (·.1)
  · have hkeys : (Graph.bindIn label iri spaces).map (·.1) = spaces.map (·.1) := by
      clear h
      induction spaces with
      | nil => simp at hmem
      | cons space spaces ih =>
        by_cases hs : space.1 = label
        · simp [Graph.bindIn, hs]
        · have hrest := (List.mem_cons.1 hmem).resolve_left (Ne.symm hs)
          simp [Graph.bindIn, hs, ih hrest]
    rwa [hkeys]
  · rw [bindIn_new hmem, List.map_append, List.nodup_append]
    refine ⟨h, by simp, fun other hother last hlast he => hmem ?_⟩
    obtain rfl : last = label := by simpa using hlast
    exact he ▸ hother

theorem directives_inScope (hbase : ∀ iri ∈ base, iri.isAbsolute = true)
    (hspaces : ∀ space ∈ spaces, space.2.isAbsolute = true) (hnodup : (spaces.map (·.1)).Nodup) :
    (directives base spaces).InScope ⟨none, []⟩ ∧
      (directives base spaces).scopeAfter ⟨none, []⟩ = ⟨base, spaces⟩ := by
  have hbind : ∀ (base : Option Iri) (done : Spaces), ((done ++ spaces).map (·.1)).Nodup →
      (directives none spaces).InScope ⟨base, done⟩ ∧
        (directives none spaces).scopeAfter ⟨base, done⟩ = ⟨base, done ++ spaces⟩ := by
    intro base
    induction spaces with
    | nil => simp [directives, Document.InScope, Document.scopeAfter]
    | cons space spaces ih =>
      intro done hdone
      obtain ⟨hspace, hspaces⟩ := List.forall_mem_cons.1 hspaces
      have hnew : space.1 ∉ done.map (·.1) := by
        rw [List.map_append, List.nodup_append] at hdone
        exact fun hmem => hdone.2.2 _ hmem _ (List.mem_map_of_mem List.mem_cons_self) rfl
      have hafter : (Statement.space "@prefix" true space.1 space.2.value :
          Statement String).scopeAfter ⟨base, done⟩ = ⟨base, done ++ [space]⟩ := by
        simp only [Statement.scopeAfter, Scope.iri_of_isAbsolute _ hspace, bindIn_new hnew]
      have hrest := ih hspaces (List.nodup_cons.1 hnodup).2 (done ++ [space])
        (by simpa using hdone)
      have hscheme : hasScheme space.2.value.toList = true := hspace
      simp only [directives, Option.toList_none, List.map_nil, List.nil_append, List.map_cons,
        Document.InScope, Document.scopeAfter, List.foldl_cons, hafter] at hrest ⊢
      refine ⟨⟨by simp [Statement.names, Name.InScope, hscheme], hrest.1⟩, ?_⟩
      simpa using hrest.2
  cases base with
  | none => simpa using hbind none [] (by simpa using hnodup)
  | some iri =>
    have hiri := hbase iri rfl
    have hscheme : hasScheme iri.value.toList = true := hiri
    have hafter : (Statement.base "@base" true iri.value : Statement String).scopeAfter
        ⟨none, []⟩ = ⟨some iri, []⟩ := by
      simp only [Statement.scopeAfter, Scope.iri_of_isAbsolute _ hiri]
    have hrest := hbind (some iri) [] (by simpa using hnodup)
    simp only [directives, Option.toList_none, Option.toList_some, List.map_nil, List.map_cons,
      List.nil_append, List.cons_append, Document.InScope, Document.scopeAfter, List.foldl_cons,
      hafter] at hrest ⊢
    exact ⟨⟨by simp [Statement.names, Name.InScope, hscheme], hrest.1⟩, hrest.2⟩

end Rdf.Turtle

import Rdf.Proofs.Turtle.Labelling
import Rdf.Proofs.Turtle.RoundTrip

/-!
The order in which triples are written, and read back.

Without collections, the triples of a graph are written subject by subject and, for each subject,
predicate by predicate. They are read back in this order and with their own labels, and grouping
them once more changes nothing, so that what is read is written as the same text again.
-/

namespace Rdf.Turtle

open Text

/-! ### Groups -/

theorem eraseDups_of_nodup {α : Type} [BEq α] [LawfulBEq α] {xs : List α} (h : xs.Nodup) :
    xs.eraseDups = xs := by
  induction xs with
  | nil => rfl
  | cons x xs ih =>
    obtain ⟨hx, hnodup⟩ := List.nodup_cons.1 h
    have hkeep : xs.filter (fun y => !y == x) = xs := List.filter_eq_self.2 fun y hy => by
      have hne : y ≠ x := fun he => hx (he ▸ hy)
      simpa using hne
    rw [List.eraseDups_cons, hkeep, ih hnodup]

theorem eraseDups_concat {α : Type} [DecidableEq α] (xs : List α) (x : α) :
    (xs ++ [x]).eraseDups = if x ∈ xs then xs.eraseDups else xs.eraseDups ++ [x] := by
  by_cases h : x ∈ xs <;> simp [List.eraseDups_append, List.removeAll, h, List.eraseDups_cons]

section

variable {α β : Type} [DecidableEq α] {key : α} {value : β} {groups : List (α × List β)}

theorem pushTo_of_not_mem (h : key ∉ groups.map (·.1)) :
    pushTo key value groups = groups ++ [(key, [value])] := by
  induction groups with
  | nil => rfl
  | cons group groups ih =>
    rw [List.map_cons, List.mem_cons, not_or] at h
    rw [pushTo, if_neg (Ne.symm h.1), ih h.2, List.cons_append]

theorem pushTo_append (h : key ∉ groups.map (·.1)) (values : List β) (later : List (α × List β)) :
    pushTo key value (groups ++ (key, values) :: later) =
      groups ++ (key, values ++ [value]) :: later := by
  induction groups with
  | nil => simp [pushTo]
  | cons group groups ih =>
    rw [List.map_cons, List.mem_cons, not_or] at h
    rw [List.cons_append, pushTo, if_neg (Ne.symm h.1), ih h.2, List.cons_append]

/-- The values of a row of entries under a key. -/
def valuesAt (entries : List (α × β)) (key : α) : List β :=
  (entries.filter fun entry => entry.1 = key).map (·.2)

/-- Each key stands where it appears first, with its values in their order. -/
theorem groupBy_eq (entries : List (α × β)) :
    groupBy entries = (entries.map (·.1)).eraseDups.map fun key => (key, valuesAt entries key) := by
  induction entries using List.reverseRecOn with
  | nil => rfl
  | append_singleton entries entry ih =>
    obtain ⟨key, value⟩ := entry
    have hpush : groupBy (entries ++ [(key, value)]) = pushTo key value (groupBy entries) :=
      List.foldl_append
    have hsame : valuesAt (entries ++ [(key, value)]) key = valuesAt entries key ++ [value] := by
      simp [valuesAt]
    have hothers : ∀ keys : List α, key ∉ keys →
        keys.map (fun other => (other, valuesAt (entries ++ [(key, value)]) other)) =
          keys.map fun other => (other, valuesAt entries other) := fun keys hkey =>
      List.map_congr_left fun other hother => by
        have hne : key ≠ other := fun he => hkey (he ▸ hother)
        simp [valuesAt, hne]
    have hfst : ∀ keys : List α,
        (keys.map fun other => (other, valuesAt entries other)).map (·.1) = keys := fun keys => by
      simp [Function.comp_def]
    rw [hpush, ih, List.map_append, List.map_singleton, eraseDups_concat]
    by_cases hmem : key ∈ entries.map (·.1)
    · obtain ⟨before, after, hsplit⟩ := List.append_of_mem (List.mem_eraseDups.2 hmem)
      have hnodup := nodup_eraseDups (entries.map (·.1))
      rw [hsplit, List.nodup_middle, List.nodup_cons, List.mem_append, not_or] at hnodup
      rw [if_pos hmem, hsplit, List.map_append, List.map_cons,
        pushTo_append (by rw [hfst]; exact hnodup.1.1), List.map_append, List.map_cons, hsame,
        hothers before hnodup.1.1, hothers after hnodup.1.2]
    · have hnot : key ∉ (entries.map (·.1)).eraseDups := fun h => hmem (List.mem_eraseDups.1 h)
      have hnone : valuesAt entries key = [] :=
        List.map_eq_nil_iff.2 (List.filter_eq_nil_iff.2 fun entry hentry => by
          have hne : entry.1 ≠ key := fun he => hmem (he ▸ List.mem_map_of_mem hentry)
          simpa using hne)
      rw [if_neg hmem, pushTo_of_not_mem (by rwa [hfst]), List.map_append, hothers _ hnot,
        List.map_singleton, hsame, hnone, List.nil_append]

/-- Values that are grouped by different keys are grouped in the same way again. -/
theorem groupBy_ungroup (hkeys : (groups.map (·.1)).Nodup) (hne : ∀ group ∈ groups, group.2 ≠ []) :
    groupBy (ungroup groups) = groups := by
  let push (groups : List (α × List β)) (entry : α × β) := pushTo entry.1 entry.2 groups
  have hvalues : ∀ (done : List (α × List β)) (key : α) (values more : List β),
      key ∉ done.map (·.1) → (more.map fun value => (key, value)).foldl push
        (done ++ [(key, values)]) = done ++ [(key, values ++ more)] := by
    intro done key values more hkey
    induction more generalizing values with
    | nil => simp
    | cons value more ih =>
      have hpush : push (done ++ [(key, values)]) (key, value) =
          done ++ [(key, values ++ [value])] := pushTo_append hkey values []
      rw [List.map_cons, List.foldl_cons, hpush, ih, List.append_assoc, List.singleton_append]
  have hgo : ∀ done : List (α × List β), ((done ++ groups).map (·.1)).Nodup →
      (ungroup groups).foldl push done = done ++ groups := by
    intro done hnodup
    induction groups generalizing done with
    | nil => simp [ungroup]
    | cons group groups ih =>
      obtain ⟨key, values⟩ := group
      obtain ⟨hfirst, hrest⟩ := List.forall_mem_cons.1 hne
      have hkey : key ∉ done.map (·.1) := by
        rw [List.map_append, List.nodup_append] at hnodup
        exact fun hmem => hnodup.2.2 key hmem key (by simp) rfl
      obtain ⟨value, more, rfl⟩ := List.exists_cons_of_ne_nil hfirst
      have hpush : push done (key, value) = done ++ [(key, [value])] := pushTo_of_not_mem hkey
      have hnext := ih (List.nodup_cons.1 hkeys).2 hrest (done ++ [(key, value :: more)])
        (by simpa using hnodup)
      rw [ungroup, List.flatMap_cons, List.foldl_append, List.map_cons, List.foldl_cons, hpush,
        hvalues done key [value] more hkey, List.singleton_append]
      simpa [ungroup] using hnext
  exact hgo [] hkeys

theorem keys_groupBy_nodup (entries : List (α × β)) : ((groupBy entries).map (·.1)).Nodup := by
  rw [groupBy_eq, List.map_map]
  simpa [Function.comp_def] using nodup_eraseDups (entries.map (·.1))

end

/-! ### Triples by subject and predicate -/

/-- The subjects of a row of triples, in the order of their first appearances. -/
def subjectsOf (triples : List Triple) : List Term := (triples.map (·.subject)).eraseDups

/-- The predicates of a subject, in the order of their first appearances with it. -/
def predicatesOf (triples : List Triple) (subject : Term) : List Term :=
  ((triples.filter fun t => t.subject = subject).map (·.predicate)).eraseDups

/-- Triples by subject and, for each subject, by predicate, and then in their own order. -/
def arranged (triples : List Triple) : List Triple :=
  (subjectsOf triples).flatMap fun subject =>
    (predicatesOf triples subject).flatMap fun predicate =>
      triples.filter fun t => t.subject = subject ∧ t.predicate = predicate

/-- The printer puts triples in this order. -/
theorem contents_grouped_eq (triples : List Triple) :
    contents (grouped triples) = arranged triples := by
  have hvalues : ∀ subject,
      valuesAt (triples.map fun t => (t.subject, (t.predicate, t.object))) subject =
        (triples.filter fun t => t.subject = subject).map fun t => (t.predicate, t.object) := by
    intro subject
    simp [valuesAt, List.filter_map, Function.comp_def]
  have hobjects : ∀ subject predicate,
      (valuesAt ((triples.filter fun t => t.subject = subject).map fun t =>
        (t.predicate, t.object)) predicate).map (Triple.mk subject predicate) =
          triples.filter fun t => t.subject = subject ∧ t.predicate = predicate := by
    intro subject predicate
    rw [valuesAt, List.filter_map, List.map_map, List.map_map, List.filter_filter]
    have hfilter : (triples.filter fun t => decide (t.predicate = predicate) &&
        decide (t.subject = subject)) =
          triples.filter fun t => t.subject = subject ∧ t.predicate = predicate := by
      simp [Bool.and_comm]
    refine Eq.trans (List.map_congr_left fun t ht => ?_) ((List.map_id _).trans hfilter)
    obtain ⟨rfl, rfl⟩ : t.predicate = predicate ∧ t.subject = subject := by
      simpa using (List.mem_filter.1 ht).2
    rfl
  simp only [contents, content, grouped, groupBy_eq, hvalues, List.map_map, List.flatMap_map,
    Function.comp_def, hobjects]
  simp only [arranged, subjectsOf, predicatesOf]

/-- Triples in this order are grouped as they were before. -/
theorem grouped_contents (triples : List Triple) :
    grouped (contents (grouped triples)) = grouped triples := by
  let outer := groupBy (triples.map fun t => (t.subject, (t.predicate, t.object)))
  have hgrouped : grouped triples = outer.map fun group => (group.1, groupBy group.2) := rfl
  have hentries : (contents (grouped triples)).map (fun t => (t.subject, (t.predicate, t.object))) =
      ungroup (outer.map fun group => (group.1, ungroup (groupBy group.2))) := by
    simp [hgrouped, contents, content, ungroup, List.flatMap_map, List.map_flatMap,
      Function.comp_def]
  have hkeys : ((outer.map fun group => (group.1, ungroup (groupBy group.2))).map (·.1)).Nodup := by
    rw [List.map_map]
    exact keys_groupBy_nodup _
  have hne : ∀ group ∈ outer.map fun group => (group.1, ungroup (groupBy group.2)),
      group.2 ≠ [] := by
    intro group hgroup hnil
    obtain ⟨entry, hentry, rfl⟩ := List.mem_map.1 hgroup
    have hperm := ungroup_groupBy entry.2
    rw [show ungroup (groupBy entry.2) = [] from hnil] at hperm
    exact ne_nil_of_mem_groupBy _ entry hentry hperm.nil_eq.symm
  have hinner : ∀ entries : List (Term × Term),
      groupBy (ungroup (groupBy entries)) = groupBy entries := fun entries =>
    groupBy_ungroup (keys_groupBy_nodup entries) (ne_nil_of_mem_groupBy entries)
  rw [grouped, hentries, groupBy_ungroup hkeys hne, List.map_map, hgrouped]
  simp [hinner]

/-! ### Documents without marks -/

/-- No bracket is opened, and a parenthesis is closed at once. -/
inductive Unnested : List Lexeme → Prop
  | nil : Unnested []
  | cons {l : Lexeme} {rest : List Lexeme} : l ≠ .punct .openBracket → l ≠ .punct .openParen →
    Unnested rest → Unnested (l :: rest)
  | emptyList {rest : List Lexeme} : Unnested rest →
    Unnested (.punct .openParen :: .punct .closeParen :: rest)

namespace Unnested

variable {lexemes later : List Lexeme} {l : Lexeme}

theorem single (hbracket : l ≠ .punct .openBracket) (hparen : l ≠ .punct .openParen) :
    Unnested [l] := .cons hbracket hparen .nil

theorem append (h : Unnested lexemes) (hlater : Unnested later) : Unnested (lexemes ++ later) := by
  induction h with
  | nil => exact hlater
  | cons hbracket hparen _ ih => exact .cons hbracket hparen ih
  | emptyList _ ih => exact .emptyList ih

theorem isFlat (h : Unnested lexemes) : IsFlat lexemes := by
  induction h with
  | nil => exact ⟨by simp, by simp⟩
  | @cons l rest hbracket hparen _ ih =>
    refine ⟨?_, fun before next after he => ?_⟩
    · rw [List.mem_cons, not_or]
      exact ⟨Ne.symm hbracket, ih.bracket⟩
    · cases before with
      | nil => exact (hparen (List.cons.inj he).1).elim
      | cons first before => exact ih.paren before next after (List.cons.inj he).2
  | @emptyList rest _ ih =>
    refine ⟨by simpa using ih.bracket, fun before next after he => ?_⟩
    cases before with
    | nil => exact (List.cons.inj (List.cons.inj he).2).1.symm
    | cons first before =>
      cases before with
      | nil => simp at he
      | cons second before =>
        exact ih.paren before next after (List.cons.inj (List.cons.inj he).2).2

theorem name (n : Name) : Unnested [n.lexeme] := by
  cases n <;> exact .single (by simp [Name.lexeme]) (by simp [Name.lexeme])

theorem constant (c : Constant) : Unnested c.lexemes := by
  cases c with
  | string delimiter value suffix =>
    refine .cons (by simp) (by simp) ?_
    cases suffix with
    | nothing => exact .nil
    | language tag => exact .single (by simp) (by simp)
    | datatype n => exact .cons (by simp) (by simp) (.name n)
  | number kind text => exact .single (by simp) (by simp)
  | boolean text => exact .single (by simp) (by simp)

/-- A phrase without marks opens no brackets, and its collections are empty. -/
theorem phrase {part : Part} (phrase : Phrase String part) (h : phrase.marks = []) :
    Unnested phrase.lexemes := by
  induction phrase with
  | name n => exact .name n
  | blank label => exact .single (by simp) (by simp)
  | emptyBracket | bracket => simp [Phrase.marks] at h
  | collection items _ =>
    obtain ⟨-, hcells⟩ := List.append_eq_nil_iff.1 h
    cases items with
    | noItems => exact .emptyList .nil
    | item => simp [Phrase.cells] at hcells
  | resource node ih => exact ih h
  | constant c => exact .constant c
  | noItems | noObjects | noMore => exact .nil
  | item cell first rest ih ihRest =>
    obtain ⟨hfirst, hrest⟩ := List.append_eq_nil_iff.1 h
    exact (ih hfirst).append (ihRest hrest)
  | nextObject first rest ih ihRest =>
    obtain ⟨hfirst, hrest⟩ := List.append_eq_nil_iff.1 h
    exact .cons (by simp) (by simp) ((ih hfirst).append (ihRest hrest))
  | predicates verb first rest more ih ihRest ihMore =>
    simp only [Phrase.marks, List.append_eq_nil_iff] at h
    have hverb : Unnested [verb.lexeme] := by
      cases verb with
      | a => exact .single (by simp [Verb.lexeme]) (by simp [Verb.lexeme])
      | name n => exact .name n
    exact hverb.append (((ih h.1.1).append (ihRest h.1.2)).append (ihMore h.2))
  | semicolon rest ih => exact .cons (by simp) (by simp) (ih h)
  | nextPredicates content ih => exact .cons (by simp) (by simp) (ih h)

theorem document {document : Document String} (h : document.marks = []) :
    Unnested document.lexemes := by
  induction document with
  | nil => exact .nil
  | cons statement document ih =>
    rw [Document.marks, List.flatMap_cons, List.append_eq_nil_iff] at h
    obtain ⟨hmarks, hrest⟩ := h
    refine Unnested.append ?_ (ih hrest)
    have hend : ∀ isDotted, Unnested (directiveEnd isDotted) := fun isDotted => by
      cases isDotted
      · exact .nil
      · exact .single (by simp) (by simp)
    cases statement with
    | space word isDotted label value =>
      refine .cons (by simp) (by simp) ?_
      exact .cons (by simp) (by simp) (.cons (by simp) (by simp) (hend _))
    | base word isDotted value =>
      exact .cons (by simp) (by simp) (.cons (by simp) (by simp) (hend _))
    | triples subject content =>
      obtain ⟨hsubject, hcontent⟩ := List.append_eq_nil_iff.1 hmarks
      exact ((phrase subject hsubject).append (phrase content hcontent)).append
        (.single (by simp) (by simp))
    | lone => simp [Statement.marks] at hmarks

end Unnested

/-- A document without marks is read with its own labels. -/
theorem Document.runs_own (document : Document String) (base : Option Iri)
    (hscope : document.InScope ⟨base, []⟩) (hproper : ∀ l ∈ document.lexemes, l.Proper)
    (hshallow : document.IsShallow) (hmarks : document.marks = [])
    (hformed : ∀ t ∈ document.triples id id ⟨base, []⟩, t.WellFormed) :
    ∃ s : State, machine.runLexemes { graph := { base } } (document.lexemes ++ [.eof]) =
        .ok (s.expect .nothing) ∧
      s.graph.triples = (document.triples id id ⟨base, []⟩).eraseDups ∧
      Scope.ofGraph s.graph = document.scopeAfter ⟨base, []⟩ := by
  obtain ⟨s, new, hrun, houtcome⟩ := document.runs base hscope hproper hshallow
  have hnew : new = [] := List.map_eq_nil_iff.1 (houtcome.marks.trans hmarks)
  have hflat : IsFlat (document.lexemes ++ [.eof]) :=
    ((Unnested.document hmarks).append (.single (by simp) (by simp))).isFlat
  have hnone := (recorded_start base).minted_run rfl (.inl ⟨rfl, by simp [Expecting.target?]⟩)
    hflat hrun
  have hrecorded := (recorded_start base).run hrun
  have hown : Agrees ⟨Scope.iri ⟨base, []⟩, id, id⟩ s ([] ++ new) :=
    ⟨fun hlookup => hrecorded.stems.own_of_minted hnone hlookup, by simp [hnew]⟩
  refine ⟨s, hrun, ?_, houtcome.scope⟩
  have hempty : ({ base } : Graph).triples = ({} : Graph).triples := rfl
  rw [houtcome.triples _ hown, ← Graph.triples_addAll hformed]
  exact Graph.addAll_congr hempty _

/-! ### Round trip -/

variable {options : Options} {g result : Graph}

theorem writtenSpaces_idem (hspaces : result.namespaces = writtenSpaces options g) :
    writtenSpaces options result = writtenSpaces options g := by
  by_cases hw : options.writesLabels = true
  · rw [writtenSpaces, if_pos hw, hspaces, writtenSpaces, if_pos hw, List.filter_filter]
    simp
  · simp [writtenSpaces, hw]

theorem header_idem (hbase : result.base = writtenBase options g)
    (hspaces : result.namespaces = writtenSpaces options g) :
    header options result = header options g := by
  have hlines : (if options.writesBase then result.base.toList.map baseLine else []) =
      if options.writesBase then g.base.toList.map baseLine else [] := by
    by_cases hw : options.writesBase = true
    · simp [hw, hbase, writtenBase]
    · simp [hw]
  simp only [header, hlines, writtenSpaces_idem hspaces]

/-- What is written depends on the order of the triples only as far as it shows in their groups. -/
theorem write_congr (hlists : options.lists = .cells) (hbase : result.base = writtenBase options g)
    (hspaces : result.namespaces = writtenSpaces options g)
    (htriples : result.triples.Perm g.triples)
    (hgrouped : grouped result.triples = grouped g.triples) {text : String}
    (hwrite : write g options = .ok text) : write result options = .ok text := by
  obtain ⟨hformed, -⟩ := write_eq_ok hwrite
  have hall : ∀ h : Graph, visible h.triples [] = h.triples := fun h => by simp [visible, compacted]
  have hchains : ∀ h : Graph, options.chains h.triples = [] := fun h => by
    simp [Options.chains, hlists]
  have hchecks : result.triples.forM Spelling.checkTriple = g.triples.forM Spelling.checkTriple :=
    (checks_eq_ok_iff.2 fun t ht => hformed t (htriples.mem_iff.1 ht)).trans
      (checks_eq_ok_iff.2 hformed).symm
  rw [← hwrite, write, write, hchecks, header_idem hbase hspaces, writtenSpaces_idem hspaces]
  simp only [hchains, hall, statements, hgrouped]

/-- Without chains, statements add just the triples that they are written for, in their order, with
no mark and nothing nested. -/
theorem Writes.of_nil {scope : Scope} {text : List Char} {body : Document String}
    {own : List Triple} (h : Writes scope [] text body own) :
    (body.flatMap fun statement => statement.added scope id id) = own ∧ body.marks = [] ∧
      ∀ statement ∈ body, statement.depth = 0 := by
  have hflat : (own.map (·.object)).flatMap (expand []) = [] :=
    List.flatMap_eq_nil_iff.2 fun t _ => by cases t <;> simp [expand]
  obtain ⟨hperm, hmarks⟩ := And.intro h.triples h.marks
  rw [hflat, List.flatMap_nil] at hperm hmarks
  rw [List.append_nil] at hperm
  refine ⟨(h.order.eq_of_length hperm.length_eq.symm).symm, hmarks.eq_nil, fun statement hs => ?_⟩
  refine Nat.le_zero.1 ((h.depth 0).2 (fun t _ => ?_) statement hs)
  cases t.object <;> simp [height]

/-- Without collections, a graph is read back with its own labels, its triples in the order that
they are written in, and what is read is written as the same text. -/
theorem read_write_cells (hlists : options.lists = .cells) (h : SelfDeclared options g)
    (hnodup : g.triples.Nodup) {text : String} (hwrite : write g options = .ok text)
    (source : SourceName) :
    ∃ result, read text source none = .ok result ∧ result.triples.Perm g.triples ∧
      result.triples = arranged g.triples ∧ result.base = writtenBase options g ∧
      result.namespaces = writtenSpaces options g ∧ write result options = .ok text := by
  have hchains : options.chains g.triples = [] := by simp [Options.chains, hlists]
  have hall : visible g.triples [] = g.triples := by simp [visible, compacted]
  obtain ⟨block, body, hbody, hlexes⟩ := write_body h.toDefinite hwrite
  rw [hchains, hall] at hbody
  obtain ⟨hscope, hafter, htriples⟩ := h.inScope hbody
  let document := directives (writtenBase options g) (writtenSpaces options g) ++ body
  obtain ⟨hadded, hbodyMarks, hbodyDepth⟩ := hbody.of_nil
  obtain ⟨hheadMarks, -, hheadDepth, -⟩ :=
    directives_empty (writtenBase options g) (writtenSpaces options g) ⟨none, []⟩
  have hown : document.triples id id ⟨none, []⟩ = contents (grouped g.triples) :=
    htriples.trans hadded
  have hperm := contents_grouped g.triples
  have hmarks : document.marks = [] := by
    rw [Document.marks, List.flatMap_append]
    exact List.append_eq_nil_iff.2 ⟨hheadMarks, hbodyMarks⟩
  have hshallow : document.IsShallow := fun statement hs =>
    (List.forall_mem_append.2 ⟨hheadDepth, hbodyDepth⟩ statement hs).trans_le (Nat.zero_le _)
  have hproper : ∀ l ∈ document.lexemes, l.Proper := fun l hl =>
    proper_of_lexes hlexes l (List.mem_append_left _ hl)
  obtain ⟨s, hrun, hread, hdeclared⟩ := document.runs_own none hscope hproper hshallow hmarks
    fun t ht => (write_eq_ok hwrite).1 t (hperm.mem_iff.1 (hown ▸ ht))
  have harranged : s.graph.triples = contents (grouped g.triples) := by
    rw [hread, hown, eraseDups_of_nodup (hperm.nodup_iff.2 hnodup)]
  obtain ⟨tokens, hscan, hmap⟩ := hlexes.scanFrom .start
  have hbase : s.graph.base = writtenBase options g := congrArg Scope.base (hdeclared.trans hafter)
  have hspaces : s.graph.namespaces = writtenSpaces options g :=
    congrArg Scope.spaces (hdeclared.trans hafter)
  refine ⟨s.graph, ?_, harranged ▸ hperm,
    harranged.trans (contents_grouped_eq g.triples), hbase, hspaces, ?_⟩
  · rw [read, readTokens, Token.scanAll, hscan]
    exact machine.read_eq_ok_iff.2 ⟨_, hmap ▸ hrun, rfl⟩
  · refine write_congr hlists hbase hspaces (harranged ▸ hperm) ?_ hwrite
    rw [harranged, grouped_contents]

/-- Two subjects take turns, and so do the predicates of the first. -/
theorem read_write_cells_interleaved :
    let options : Options := { lists := .cells }
    let first (object : Term) : Triple := ⟨.blank "auto0", .iri ⟨"urn:p#a"⟩, object⟩
    let second (object : Term) : Triple := ⟨.blank "auto0", .iri Vocabulary.type, object⟩
    let other (object : Term) : Triple := ⟨.iri ⟨"urn:<s>"⟩, .iri ⟨"urn:p#a"⟩, object⟩
    let number : Term := .literal ⟨"1.50", none, some Vocabulary.decimal⟩
    let g : Graph := {
      base := some ⟨"urn:b"⟩
      namespaces := [("p", ⟨"urn:p#"⟩), ("a b", ⟨"relative"⟩)]
      triples := [first number, other (.blank "x"), second (.iri Vocabulary.nil),
        first (.blank "auto0"), other number] }
    ∃ text result, write g options = .ok text ∧ read text (.text "turns") none = .ok result ∧
      result.triples = [first number, first (.blank "auto0"), second (.iri Vocabulary.nil),
        other (.blank "x"), other number] ∧
      result.namespaces = [("p", ⟨"urn:p#"⟩)] ∧ write result options = .ok text := by
  intro options first second other number g
  have hself : SelfDeclared options g :=
    ⟨⟨by decide +kernel, by decide +kernel⟩, by decide +kernel, by decide +kernel⟩
  have hsome : (write g options).toOption.isSome = true := by decide +kernel
  have harranged : arranged g.triples = [first number, first (.blank "auto0"),
      second (.iri Vocabulary.nil), other (.blank "x"), other number] := by decide +kernel
  have hwritten : writtenSpaces options g = [("p", ⟨"urn:p#"⟩)] := by decide +kernel
  cases hwrite : write g options with
  | error fault => simp [hwrite, Except.toOption] at hsome
  | ok text =>
    obtain ⟨result, hread, -, horder, -, hspaces, hagain⟩ :=
      read_write_cells rfl hself (by decide +kernel) hwrite (.text "turns")
    exact ⟨text, result, rfl, hread, horder.trans harranged, hspaces.trans hwritten, hagain⟩

end Rdf.Turtle

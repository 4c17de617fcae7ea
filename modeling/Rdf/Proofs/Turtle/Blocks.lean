import Rdf.Proofs.Turtle.Rendering

/-!
The blocks of a document are its statements.

The printer writes a block for each subject, with its predicates and their objects. Read as
statements, the blocks are about the triples that they were written for, grouped, and about those
of the chains in them.
-/

namespace Rdf.Turtle

open Text Scan

/-! ### Groups -/

section

variable {α β : Type} [DecidableEq α]

def ungroup (groups : List (α × List β)) : List (α × β) :=
  groups.flatMap fun group => group.2.map fun value => (group.1, value)

theorem ungroup_pushTo (key : α) (value : β) (groups : List (α × List β)) :
    (ungroup (pushTo key value groups)).Perm (ungroup groups ++ [(key, value)]) := by
  induction groups with
  | nil => simp [pushTo, ungroup]
  | cons group groups ih =>
    by_cases hk : group.1 = key
    · have hlast : (ungroup groups ++ [(key, value)]).Perm ((key, value) :: ungroup groups) :=
        List.perm_append_comm
      simpa [pushTo, hk, ungroup] using hlast.symm.append_left (group.2.map fun value => (key, value))
    · simpa [pushTo, hk, ungroup] using ih.append_left (group.2.map fun value => (group.1, value))

theorem ungroup_groupBy (entries : List (α × β)) : (ungroup (groupBy entries)).Perm entries := by
  have hfold : ∀ groups : List (α × List β),
      (ungroup (entries.foldl (fun groups entry => pushTo entry.1 entry.2 groups) groups)).Perm
        (ungroup groups ++ entries) := by
    induction entries with
    | nil => simp
    | cons entry entries ih =>
      intro groups
      have hpush := (ungroup_pushTo entry.1 entry.2 groups).append_right entries
      rw [List.append_assoc] at hpush
      exact (ih _).trans hpush
  exact hfold []

theorem ne_nil_of_mem_pushTo {key : α} {value : β} {groups : List (α × List β)}
    (h : ∀ group ∈ groups, group.2 ≠ []) : ∀ group ∈ pushTo key value groups, group.2 ≠ [] := by
  induction groups with
  | nil => simp [pushTo]
  | cons first groups ih =>
    obtain ⟨hfirst, hgroups⟩ := List.forall_mem_cons.1 h
    by_cases hk : first.1 = key
    · simpa [pushTo, hk] using hgroups
    · simp only [pushTo, hk, if_false]
      exact List.forall_mem_cons.2 ⟨hfirst, ih hgroups⟩

theorem ne_nil_of_mem_groupBy (entries : List (α × β)) : ∀ group ∈ groupBy entries, group.2 ≠ [] := by
  have hfold : ∀ groups : List (α × List β), (∀ group ∈ groups, group.2 ≠ []) →
      ∀ group ∈ entries.foldl (fun groups entry => pushTo entry.1 entry.2 groups) groups,
        group.2 ≠ [] := by
    induction entries with
    | nil => exact fun _ h => h
    | cons entry entries ih => exact fun groups h => ih _ (ne_nil_of_mem_pushTo h)
  exact hfold [] (by simp)

end

/-- The triples of a subject with its predicates and their objects. -/
def content (subject : Term) (groups : List (Term × List Term)) : List Triple :=
  groups.flatMap fun group => group.2.map fun object => ⟨subject, group.1, object⟩

/-- The triples of statements, subject by subject. -/
def contents (groups : List (Term × List (Term × List Term))) : List Triple :=
  groups.flatMap fun group => content group.1 group.2

theorem contents_grouped (triples : List Triple) : (contents (grouped triples)).Perm triples := by
  let entries := triples.map fun t => (t.subject, (t.predicate, t.object))
  let back (entry : Term × Term × Term) : Triple := ⟨entry.1, entry.2.1, entry.2.2⟩
  have hback : entries.map back = triples := by simp [entries, back, Function.comp_def]
  have hinner : contents (grouped triples) = (groupBy entries).flatMap fun group =>
      (ungroup (groupBy group.2)).map fun value => back (group.1, value) := by
    simp [contents, content, grouped, ungroup, entries, back, List.flatMap_map, List.map_flatMap,
      Function.comp_def]
  have houter : ((groupBy entries).flatMap fun group =>
      group.2.map fun value => back (group.1, value)) = (ungroup (groupBy entries)).map back := by
    simp [ungroup, List.map_flatMap, Function.comp_def]
  have hsame := (ungroup_groupBy entries).map back
  rw [hback] at hsame
  rw [hinner]
  refine List.Perm.trans (List.Perm.flatMap_left _ fun group _ => ?_) (houter ▸ hsame)
  exact (ungroup_groupBy group.2).map _

theorem mem_grouped {triples : List Triple} {group : Term × List (Term × List Term)}
    (h : group ∈ grouped triples) :
    group.2 ≠ [] ∧ (∀ part ∈ group.2, part.2 ≠ []) ∧ ∀ t ∈ content group.1 group.2, t ∈ triples := by
  have hall : ∀ t ∈ content group.1 group.2, t ∈ triples := fun t ht =>
    (contents_grouped triples).mem_iff.1 (List.mem_flatMap.2 ⟨group, h, ht⟩)
  obtain ⟨outer, houter, rfl⟩ := List.mem_map.1 h
  refine ⟨?_, ne_nil_of_mem_groupBy outer.2, hall⟩
  intro hnil
  have hempty : groupBy outer.2 = [] := hnil
  have hperm := ungroup_groupBy outer.2
  rw [hempty] at hperm
  exact ne_nil_of_mem_groupBy _ outer houter hperm.nil_eq.symm

/-! ### Phrases of a subject -/

/-- The namespaces and the chains that a document can be written with. -/
structure Printable (spaces : Spaces) (chains : List Chain) : Prop where
  declarable : Declarable spaces
  absolute : ∀ chain ∈ chains, ∀ item ∈ chain.items, item.Absolute
  length : ∀ chain ∈ chains, chain.items.length = chain.ids.length

/-- A text is written for a phrase that is about some triples and the chains in their objects. -/
def RendersTriples {part : Part} (scope : Scope) (chains : List Chain) (subject : Term)
    (text : List Char) (phrase : Phrase String part) (own : List Triple) : Prop :=
  ∀ predicate, Renders scope text phrase subject predicate own
    ((own.map (·.object)).flatMap (expand chains)) ((own.map (·.object)).flatMap (leaves chains))
    ((own.map (·.object)).map (height chains))

variable {options : Options} {spaces : Spaces} {chains : List Chain} {base : Option Iri}
  {scope : Scope} {subject predicate : Term} {text : List Char} {own : List Triple}

theorem Printable.term_renders (h : Printable spaces chains) (base : Option Iri) {t : Term}
    (hwritten : term options spaces chains t = .ok text) (habsolute : t.Absolute) :
    ∃ phrase, RendersTerm ⟨base, spaces⟩ chains t text phrase :=
  Turtle.term_renders h.declarable base hwritten habsolute h.absolute h.length

theorem perm_object {t : Triple} {first first' rest' others behind : List Triple}
    (h1 : first'.Perm first) (h2 : rest'.Perm (others ++ behind)) :
    (first' ++ t :: rest').Perm (t :: others ++ (first ++ behind)) := by
  have hmiddle : (first' ++ t :: rest').Perm (t :: (first' ++ rest')) := List.perm_middle
  have hboth : (first' ++ rest').Perm (others ++ (first ++ behind)) :=
    (h1.append h2).trans (List.perm_append_comm_assoc _ _ _)
  exact hmiddle.trans (hboth.cons t)

theorem perm_both {first second own1 own2 behind1 behind2 : List Triple}
    (h1 : first.Perm (own1 ++ behind1)) (h2 : second.Perm (own2 ++ behind2)) :
    (first ++ second).Perm ((own1 ++ own2) ++ (behind1 ++ behind2)) := by
  have hswap := (List.perm_append_comm_assoc behind1 own2 behind2).append_left own1
  have hboth := h1.append h2
  rw [List.append_assoc] at hboth ⊢
  exact hboth.trans hswap

theorem objects_render {entries : List Entry} (predicate : Term)
    (h : ∀ entry ∈ entries, RendersTerm scope chains entry.1 entry.2.1 entry.2.2) :
    ∃ phrase : Phrase String .objects, Renders scope
      (entries.flatMap fun entry => ',' :: ' ' :: entry.2.1) phrase subject predicate
      (entries.map fun entry => ⟨subject, predicate, entry.1⟩)
      ((entries.map (·.1)).flatMap (expand chains)) ((entries.map (·.1)).flatMap (leaves chains))
      ((entries.map (·.1)).map (height chains)) := by
  induction entries with
  | nil =>
    exact ⟨.noObjects, .nil, by simp [Phrase.names], rfl, .refl _, .refl _, rfl, .refl _⟩
  | cons entry entries ih =>
    obtain ⟨hentry, hentries⟩ := List.forall_mem_cons.1 h
    obtain ⟨rest, hrest⟩ := ih hentries
    have hfirst := hentry.renders subject predicate
    refine ⟨.nextObject entry.2.2 rest, ?_, ?_, ?_, ?_, ?_, ?_, ?_⟩
    · have hboth := hfirst.spells.append hrest.spells (.flatMap (by decide) _ entries)
      exact Spells.punct .comma (by simp) hboth.space
    · exact List.forall_mem_append.2 ⟨hfirst.names, hrest.names⟩
    · simp [Phrase.labels, hfirst.labels, hrest.labels]
    · simpa [Phrase.marks] using hfirst.marks.append hrest.marks
    · have hboth := perm_object (t := ⟨subject, predicate, entry.1⟩) hfirst.triples hrest.triples
      simpa [Phrase.triples, hentry.term] using hboth
    · simp [Phrase.depth, hfirst.depth, hrest.depth]
    · have horder := hfirst.order.append (hrest.order.cons_cons ⟨subject, predicate, entry.1⟩)
      simpa [Phrase.triples, hentry.term] using horder

/-! ### Predicates -/

theorem predicatePart_eq_ok {group : Term × List Term}
    (h : predicatePart options spaces chains group = .ok text) :
    ∃ name texts, group.1 = .iri name ∧ group.2.mapM (term options spaces chains) = .ok texts ∧
      text = Turtle.predicate spaces name ++ ' ' :: [',', ' '].intercalate texts := by
  obtain ⟨verb, objects⟩ := group
  rw [predicatePart] at h
  cases verb with
  | iri name =>
    obtain ⟨written, hname, h⟩ := bind_eq_ok.1 h
    obtain ⟨texts, hobjects, h⟩ := bind_eq_ok.1 h
    obtain rfl := Except.ok.inj hname
    obtain rfl := Except.ok.inj h
    exact ⟨name, texts, rfl, hobjects, rfl⟩
  | blank _ | literal _ | plain _ =>
    obtain ⟨written, hname, -⟩ := bind_eq_ok.1 h
    simp at hname

/-- A predicate with its objects, and what is written behind them. -/
theorem predicates_render (h : Printable spaces chains) {group : Term × List Term}
    (hwritten : predicatePart options spaces chains group = .ok text) (hne : group.2 ≠ [])
    (habsolute : group.1.Absolute ∧ ∀ object ∈ group.2, object.Absolute)
    {behind : List Char} (hsep : AtSeparator behind) {more : Phrase String .more}
    (hmore : RendersTriples ⟨base, spaces⟩ chains subject behind more own) :
    ∃ phrase : Phrase String .predicates, RendersTriples ⟨base, spaces⟩ chains subject
      (text ++ behind) phrase (content subject [group] ++ own) := by
  obtain ⟨verb, objects⟩ := group
  obtain ⟨name, texts, rfl, hobjects, rfl⟩ := predicatePart_eq_ok hwritten
  obtain ⟨entries, hfst, htexts, hall⟩ := entries_of_mapM hobjects fun object hobject text ht =>
    h.term_renders base ht (habsolute.2 object hobject)
  cases entries with
  | nil => exact (hne hfst.symm).elim
  | cons first entries =>
    obtain ⟨hfirst, hentries⟩ := List.forall_mem_cons.1 hall
    obtain ⟨verb, hspells, hnames, hverb⟩ := @predicate_stands spaces base name
      (.plain ⟨base, spaces⟩) h.declarable habsolute.1 rfl
    obtain ⟨rest, hrest⟩ := @objects_render chains ⟨base, spaces⟩ subject entries (.iri name)
      hentries
    have hobject := hfirst.renders subject (.iri name)
    have hbehind := hmore (.iri name)
    have hrow : [',', ' '].intercalate texts = first.2.1 ++
        entries.flatMap fun entry => ',' :: ' ' :: entry.2.1 := by
      rw [← htexts, List.map_cons, intercalate_cons, List.flatMap_map]
      rfl
    obtain rfl : (first :: entries).map (·.1) = objects := hfst
    have hown : content subject [(.iri name, (first :: entries).map (·.1))] =
        ⟨subject, .iri name, first.1⟩ ::
          entries.map fun entry => ⟨subject, .iri name, entry.1⟩ := by
      simp [content]
    refine ⟨.predicates verb first.2.2 rest more, fun other => ?_⟩
    rw [hown, hrow]
    refine ⟨?_, ?_, ?_, ?_, ?_, ?_, ?_⟩
    · have hall := (hobject.spells.append hrest.spells (.flatMap (by decide) _ entries)).append
        hbehind.spells hsep
      simpa [Phrase.lexemes] using hspells.append hall.space (.cons (by decide) _)
    · simp only [Phrase.names, List.forall_mem_append]
      exact ⟨⟨⟨hnames, hobject.names⟩, hrest.names⟩, hbehind.names⟩
    · simp [Phrase.labels, hobject.labels, hrest.labels, hbehind.labels, Function.comp_def]
    · have hmarks := (hobject.marks.append hrest.marks).append hbehind.marks
      simpa [Phrase.marks, Function.comp_def] using hmarks
    · have htriples := perm_both (perm_object (t := ⟨subject, .iri name, first.1⟩)
        hobject.triples hrest.triples) hbehind.triples
      simpa [Phrase.triples, hverb, hfirst.term, Function.comp_def] using htriples
    · simp [Phrase.depth, hobject.depth, hrest.depth, hbehind.depth, Function.comp_def,
        Nat.max_assoc]
    · have horder := (hobject.order.append (hrest.order.cons_cons
        ⟨subject, .iri name, first.1⟩)).append hbehind.order
      simpa [Phrase.triples, hverb, hfirst.term] using horder

theorem content_cons (subject : Term) (group : Term × List Term) (groups : List (Term × List Term)) :
    content subject (group :: groups) = content subject [group] ++ content subject groups := by
  simp [content]

/-- What is written between the predicates of a subject. -/
def partMark : List Char := ['\n', ' ', ' ', ' ', ' ', ';', ' ']

theorem atSeparator_parts (texts : List (List Char)) :
    AtSeparator (texts.flatMap (partMark ++ ·)) :=
  .flatMap (by decide : '\n' ∈ separators) (fun text => partMark.tail ++ text) texts

theorem partMark_append {behind : List Char} {lexemes : List Lexeme} (h : Spells behind lexemes) :
    Spells (partMark ++ behind) (.punct .semicolon :: lexemes) := by
  have hmark : Spells (';' :: ' ' :: behind) (.punct .semicolon :: lexemes) :=
    Spells.punct .semicolon (by simp) h.space
  exact hmark.space.space.space.space.layout rfl

theorem more_renders (h : Printable spaces chains) {groups : List (Term × List Term)}
    {texts : List (List Char)}
    (hwritten : groups.mapM (predicatePart options spaces chains) = .ok texts)
    (hne : ∀ group ∈ groups, group.2 ≠ [])
    (habsolute : ∀ group ∈ groups, group.1.Absolute ∧ ∀ object ∈ group.2, object.Absolute) :
    ∃ phrase : Phrase String .more, RendersTriples ⟨base, spaces⟩ chains subject
      (texts.flatMap (partMark ++ ·)) phrase (content subject groups) := by
  induction groups generalizing texts with
  | nil =>
    obtain rfl := Except.ok.inj hwritten
    exact ⟨.noMore, fun _ => ⟨.nil, by simp [Phrase.names], rfl, .refl _, .refl _, rfl, .refl _⟩⟩
  | cons group groups ih =>
    obtain ⟨text, behind, rfl, hpart, hparts⟩ := mapM_cons_eq_ok hwritten
    obtain ⟨hfirst, hrest⟩ := List.forall_mem_cons.1 hne
    obtain ⟨hfirstAbsolute, hrestAbsolute⟩ := List.forall_mem_cons.1 habsolute
    obtain ⟨more, hmore⟩ := ih hparts hrest hrestAbsolute
    obtain ⟨phrase, hphrase⟩ := predicates_render h hpart hfirst hfirstAbsolute
      (atSeparator_parts behind) hmore
    refine ⟨.nextPredicates phrase, fun predicate => ?_⟩
    obtain ⟨hspells, hnames, hlabels, hmarks, htriples, hdepth, horder⟩ := hphrase predicate
    rw [content_cons]
    refine ⟨?_, hnames, hlabels, hmarks, htriples, hdepth, horder⟩
    have hmarked := partMark_append hspells
    simpa [Phrase.lexemes] using hmarked

theorem content_renders (h : Printable spaces chains) {groups : List (Term × List Term)}
    {texts : List (List Char)}
    (hwritten : groups.mapM (predicatePart options spaces chains) = .ok texts)
    (hgroups : groups ≠ []) (hne : ∀ group ∈ groups, group.2 ≠ [])
    (habsolute : ∀ group ∈ groups, group.1.Absolute ∧ ∀ object ∈ group.2, object.Absolute)
    (base : Option Iri) (subject : Term) :
    ∃ phrase : Phrase String .predicates, RendersTriples ⟨base, spaces⟩ chains subject
      (partMark.intercalate texts) phrase (content subject groups) := by
  cases groups with
  | nil => exact (hgroups rfl).elim
  | cons group groups =>
    obtain ⟨text, behind, rfl, hpart, hparts⟩ := mapM_cons_eq_ok hwritten
    obtain ⟨hfirst, hrest⟩ := List.forall_mem_cons.1 hne
    obtain ⟨hfirstAbsolute, hrestAbsolute⟩ := List.forall_mem_cons.1 habsolute
    obtain ⟨more, hmore⟩ := @more_renders options spaces chains base subject h _ _ hparts hrest
      hrestAbsolute
    rw [content_cons, intercalate_cons]
    exact predicates_render h hpart hfirst hfirstAbsolute (atSeparator_parts behind) hmore

/-! ### Statements -/

/-- A subject that is no node of a chain is written as a name or with its label. -/
theorem subject_renders (h : Printable spaces chains)
    (hwritten : term options spaces chains subject = .ok text)
    (hresource : subject.isResource = true) (habsolute : subject.Absolute)
    (hnode : ∀ id, subject = .blank id → id ∉ chainIds chains) (base : Option Iri) :
    ∃ phrase : Phrase String .resource, phrase.node (.plain ⟨base, spaces⟩) = subject ∧
      Renders ⟨base, spaces⟩ text phrase subject subject [] [] subject.blankId?.toList [] := by
  cases subject with
  | iri name =>
    rw [term] at hwritten
    obtain rfl := Except.ok.inj hwritten
    obtain ⟨n, hn⟩ := iri_stands h.declarable habsolute base
    exact ⟨.name n, congrArg Term.iri hn.iri, hn.spells, by simpa [Phrase.names] using hn.inScope,
      rfl, .refl _, .refl _, rfl, .refl _⟩
  | blank id =>
    have hnone : chains.find? (·.head = id) = none := by
      refine List.find?_eq_none.2 fun chain hchain he => hnode id rfl ?_
      refine List.mem_flatMap.2 ⟨chain, hchain, ?_⟩
      rw [Chain.ids_eq, of_decide_eq_true he]
      exact List.mem_cons_self
    have hblank : Spelling.blank id = .ok text := by
      rw [term] at hwritten
      split at hwritten
      · simp_all
      · exact hwritten
    obtain ⟨hlabel, rfl⟩ := blank_eq_ok hblank
    exact ⟨.blank id, rfl, .blank hlabel, by simp [Phrase.names], rfl, .refl _, .refl _, rfl,
      .refl _⟩
  | literal _ | plain _ => simp [Term.isResource] at hresource

/-- A subject and its predicates with their objects, none of them empty, can be written apart from
the nodes of some chains. -/
structure Apart (chains : List Chain) (group : Term × List (Term × List Term)) : Prop where
  predicates : group.2 ≠ []
  objects : ∀ part ∈ group.2, part.2 ≠ []
  resource : group.1.isResource = true
  node : ∀ id, group.1 = .blank id → id ∉ chainIds chains
  absolute : ∀ t ∈ content group.1 group.2, t.Absolute
  leaves : ∀ t ∈ content group.1 group.2, ∀ id ∈ leaves chains t.object, id ∉ chainIds chains

theorem Apart.absolute_parts {group : Term × List (Term × List Term)} (h : Apart chains group) :
    group.1.Absolute ∧ ∀ part ∈ group.2, part.1.Absolute ∧ ∀ object ∈ part.2, object.Absolute := by
  have hpart : ∀ part ∈ group.2, ∀ object ∈ part.2,
      (⟨group.1, part.1, object⟩ : Triple).Absolute := fun part hpart object hobject =>
    h.absolute _ (List.mem_flatMap.2 ⟨part, hpart, List.mem_map_of_mem hobject⟩)
  constructor
  · obtain ⟨part, hmem⟩ := List.exists_mem_of_ne_nil _ h.predicates
    obtain ⟨object, hobject⟩ := List.exists_mem_of_ne_nil _ (h.objects part hmem)
    exact (hpart part hmem object hobject).1
  · intro part hmem
    obtain ⟨object, hobject⟩ := List.exists_mem_of_ne_nil _ (h.objects part hmem)
    exact ⟨(hpart part hmem object hobject).2.1, fun object hobject =>
      (hpart part hmem object hobject).2.2⟩

/-- The lines of some blocks are statements about some triples, in their order. -/
structure Writes (scope : Scope) (chains : List Chain) (text : List Char)
    (body : Document String) (own : List Triple) : Prop where
  reads : ∀ ⦃rest later⦄, Reads rest later → Reads (text ++ rest) (body.lexemes ++ later)
  scopeAfter : ∀ statement ∈ body, ∀ s, statement.scopeAfter s = s
  names : ∀ statement ∈ body, ∀ n ∈ statement.names, n.InScope scope
  depth : ∀ n, (∀ statement ∈ body, statement.depth ≤ n) ↔ ∀ t ∈ own, height chains t.object ≤ n
  labels : ∀ label ∈ body.labels, label ∉ chainIds chains
  marks : body.marks.Perm (((own.map (·.object)).flatMap (expand chains)).flatMap Chain.ids)
  triples : (body.flatMap fun statement => statement.added scope id id).Perm
    (own ++ ((own.map (·.object)).flatMap (expand chains)).flatMap Chain.triples)
  order : own.Sublist (body.flatMap fun statement => statement.added scope id id)

theorem Writes.nil (scope : Scope) (chains : List Chain) : Writes scope chains [] [] [] :=
  ⟨fun _ _ h => h, by simp, by simp, by simp, by simp [Document.labels],
    .refl _, .refl _, .refl _⟩

theorem Writes.append {text' : List Char} {body body' : Document String} {own' : List Triple}
    (h1 : Writes scope chains text body own) (h2 : Writes scope chains text' body' own') :
    Writes scope chains (text ++ text') (body ++ body') (own ++ own') := by
  refine ⟨fun rest later hreads => ?_, ?_, ?_, ?_, ?_, ?_, ?_, ?_⟩
  · have hboth := h1.reads (h2.reads hreads)
    simpa [Document.lexemes] using hboth
  · exact List.forall_mem_append.2 ⟨h1.scopeAfter, h2.scopeAfter⟩
  · exact List.forall_mem_append.2 ⟨h1.names, h2.names⟩
  · intro n
    rw [List.forall_mem_append, List.forall_mem_append, h1.depth, h2.depth]
  · rw [Document.labels, List.flatMap_append]
    exact List.forall_mem_append.2 ⟨h1.labels, h2.labels⟩
  · simpa [Document.marks] using h1.marks.append h2.marks
  · simpa using perm_both h1.triples h2.triples
  · simpa using h1.order.append h2.order

theorem statement_eq_ok {group : Term × List (Term × List Term)}
    (h : statement options spaces chains group = .ok text) :
    ∃ first parts, term options spaces chains group.1 = .ok first ∧
      group.2.mapM (predicatePart options spaces chains) = .ok parts ∧
      text = first ++ ' ' :: (partMark.intercalate parts ++ [' ', '.']) := by
  rw [statement] at h
  obtain ⟨first, hfirst, h⟩ := bind_eq_ok.1 h
  obtain ⟨parts, hparts, h⟩ := bind_eq_ok.1 h
  obtain rfl := Except.ok.inj h
  exact ⟨first, parts, hfirst, hparts, by simp [partMark]⟩

theorem statement_writes (h : Printable spaces chains)
    {group : Term × List (Term × List Term)}
    (hwritten : statement options spaces chains group = .ok text) (hapart : Apart chains group)
    (base : Option Iri) :
    ∃ body, Writes ⟨base, spaces⟩ chains (text ++ ['\n']) body (content group.1 group.2) := by
  obtain ⟨hsubjectAbsolute, habsolute⟩ := hapart.absolute_parts
  obtain ⟨subject, groups⟩ := group
  obtain ⟨first, parts, hsubject, hparts, rfl⟩ := statement_eq_ok hwritten
  obtain ⟨node, hterm, hnodes⟩ := subject_renders h hsubject hapart.resource hsubjectAbsolute
    hapart.node base
  obtain ⟨phrase, hphrase⟩ := content_renders h hparts hapart.predicates hapart.objects habsolute
    base subject
  have hcontent := hphrase subject
  have hplain : (Interpretation.plain ⟨base, spaces⟩) =
      ⟨(Scope.mk base spaces).iri, id, id⟩ := rfl
  refine ⟨[.triples node phrase], fun rest later hreads => ?_, ?_, ?_, ?_, ?_, ?_, ?_, ?_⟩
  · have hfeed : Reads ('\n' :: rest) later := hreads.layout rfl
    have hdot := (Reads.punct .dot (fun _ => .cons (by decide) _) (hfeed false)).space
    have hspace : ∀ more, AtSeparator (' ' :: more) := .cons (by decide)
    have hall := hnodes.spells (hspace _) (hcontent.spells (hspace _) hdot).space
    simpa [Document.lexemes, Statement.lexemes, Punct.toChar] using hall
  · simp [Statement.scopeAfter]
  · simpa [Statement.names] using List.forall_mem_append.2 ⟨hnodes.names, hcontent.names⟩
  · intro n
    rw [List.forall_mem_singleton, Statement.depth, hnodes.depth, hcontent.depth, Nat.max_le,
      deepest_le_iff, deepest_le_iff]
    simp
  · intro label hlabel
    simp only [Document.labels, List.flatMap_cons, List.flatMap_nil, List.append_nil,
      Statement.labels, hnodes.labels, hcontent.labels, List.mem_append] at hlabel
    obtain hlabel | hlabel := hlabel
    · exact hapart.node label (Term.blankId?_eq_some_iff.1 (by simpa using hlabel))
    · obtain ⟨object, hobject, hleaf⟩ := List.mem_flatMap.1 hlabel
      obtain ⟨t, ht, rfl⟩ := List.mem_map.1 hobject
      exact hapart.leaves t ht label hleaf
  · simpa [Document.marks, Statement.marks] using hnodes.marks.append hcontent.marks
  · have hnone := hnodes.triples.append hcontent.triples
    rw [hplain] at hnone hterm
    simpa [Statement.added, hterm] using hnone
  · have horder := hnodes.order.append hcontent.order
    rw [hplain] at horder hterm
    simpa [Statement.added, hterm] using horder

theorem statements_write (h : Printable spaces chains)
    {groups : List (Term × List (Term × List Term))} {blocks : List (List Char)}
    (hwritten : groups.mapM (statement options spaces chains) = .ok blocks)
    (hapart : ∀ group ∈ groups, Apart chains group) (base : Option Iri) :
    ∃ body, Writes ⟨base, spaces⟩ chains (unlines blocks) body (contents groups) := by
  induction groups generalizing blocks with
  | nil =>
    obtain rfl := Except.ok.inj hwritten
    exact ⟨[], .nil _ _⟩
  | cons group groups ih =>
    obtain ⟨block, more, rfl, hblock, hmore⟩ := mapM_cons_eq_ok hwritten
    obtain ⟨hfirst, hrest⟩ := List.forall_mem_cons.1 hapart
    obtain ⟨body1, h1⟩ := statement_writes h hblock hfirst base
    obtain ⟨body2, h2⟩ := ih hmore hrest
    exact ⟨body1 ++ body2, h1.append h2⟩

end Rdf.Turtle

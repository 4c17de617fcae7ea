import Rdf.Proofs.Turtle.Effects

/-!
The reader of Turtle takes phrases.

By induction on the phrase, the reader goes over its lexemes, hands over the term that it stands
for and adds its triples.
-/

namespace Rdf.Turtle

variable {ν : Type} {s s1 : State} {fresh new : List (ν × String)} {target : Target}
  {iri : Name → Iri} {subject predicate : Term} {l : Lexeme}

/-! ### Beginnings of phrases -/

theorem Name.isSuffix_lexeme (n : Name) : n.lexeme.isSuffix = false := by cases n <;> rfl

theorem Verb.isSuffix_lexeme (verb : Verb) : verb.lexeme.isSuffix = false := by
  cases verb with
  | a => rfl
  | name n => exact n.isSuffix_lexeme

/-- A phrase does not begin with the suffix of a string. -/
theorem Phrase.startsFree {part : Part} (p : Phrase ν part) {rest : List Lexeme}
    (h : StartsFree rest) :
    StartsFree (p.lexemes ++ rest) := by
  induction p generalizing rest with
  | name n => exact ⟨n.lexeme, rest, rfl, n.isSuffix_lexeme⟩
  | constant literal => cases literal <;> exact ⟨_, _, rfl, rfl⟩
  | resource node ih => exact ih h
  | item cell first rest ih1 ih2 =>
    rw [lexemes, List.append_assoc]
    exact ih1 (ih2 h)
  | predicates verb first rest more =>
    simp only [lexemes, List.cons_append]
    exact ⟨verb.lexeme, _, rfl, verb.isSuffix_lexeme⟩
  | noItems | noObjects | noMore => exact h
  | blank _ | emptyBracket _ | bracket _ _ | collection _ | nextObject _ _ | semicolon _
  | nextPredicates _ => exact ⟨_, _, rfl, rfl⟩

/-! ### Statement of the induction -/

/-- The reader is ready for a phrase. -/
structure Ready {part : Part} (iri : Name → Iri) (s : State) (fresh : List (ν × String))
    (p : Phrase ν part) : Prop where
  named : Named s fresh
  resolves : ∀ n ∈ p.names, State.iri? s.graph n.lexeme = some (.ok (iri n))
  proper : ∀ l ∈ p.lexemes, l.Proper
  shallow : p.depth + s.waiting.length ≤ maxNesting

/-- A bracket with something in it may be a statement of its own. -/
def Phrase.mayEnd : Phrase ν .resource → Bool
  | bracket _ _ => true
  | _ => false

/-- The reader is about to read a predicate of a subject. -/
def State.TakesPredicate (s : State) (subject : Term) : Prop :=
  s.expecting = .predicate subject ∨ s.expecting = .firstPredicate subject ∨
    s.expecting = .anyPredicate subject ∨ s.expecting = .nextPredicate subject

/-- The reader may go on to the end of the predicates of a subject. -/
def State.MayEnd (s : State) (subject : Term) : Prop :=
  (∃ predicate, s.expecting = .more subject predicate) ∨ s.expecting = .nextPredicate subject

def Phrase.Does {part : Part} (p : Phrase ν part) (iri : Name → Iri) (subject predicate : Term) (s : State)
    (fresh : List (ν × String)) (s1 : State) (new : List (ν × String)) : Prop :=
  Effect iri s fresh s1 new p.marks p.labels (p.triples · subject predicate) ∧
    s1.waiting = s.waiting

/-- What the reader does with a phrase, from each state that expects one. -/
def Phrase.Runs (iri : Name → Iri) : {part : Part} → Phrase ν part → Prop
  | .resource, p => ∀ {s fresh target}, Ready iri s fresh p → s.expecting = .term target →
    ∃ s1 new node, (∀ subject predicate, p.Does iri subject predicate s fresh s1 new) ∧
      node.isResource = true ∧
      (∀ i : Interpretation ν, i.iri = iri → Agrees i s1 (fresh ++ new) → node = p.node i) ∧
      Leads s p.lexemes (s1.deliver node p.mayEnd target)
  | .object, p => ∀ {s fresh target}, Ready iri s fresh p → s.expecting = .term target →
    target ≠ .subject →
    ∃ s1 new term, (∀ subject predicate, p.Does iri subject predicate s fresh s1 new) ∧
      term.isTerm = true ∧
      (∀ i : Interpretation ν, i.iri = iri → Agrees i s1 (fresh ++ new) → term = p.term i) ∧
      Leads s p.lexemes (s1.deliver term false target)
  | .items, p => ∀ {s fresh done}, Ready iri s fresh p → s.expecting = .term (.item done) →
    ∃ s1 new terms, (∀ subject predicate, p.Does iri subject predicate s fresh s1 new) ∧
      (∀ term ∈ terms, term.isTerm = true) ∧ terms.length = p.cells.length ∧
      (∀ i : Interpretation ν, i.iri = iri → Agrees i s1 (fresh ++ new) → terms = p.itemTerms i) ∧
      Leads s p.lexemes (.ok (s1.expect (.term (.item (terms.reverse ++ done)))))
  | .objects, p => ∀ {s fresh subject predicate}, Ready iri s fresh p →
    subject.isResource = true → predicate.isIri = true → s.expecting = .more subject predicate →
    ∃ s1 new, p.Does iri subject predicate s fresh s1 new ∧
      s1.expecting = .more subject predicate ∧ Leads s p.lexemes (.ok s1)
  | .predicates, p => ∀ {s fresh subject}, Ready iri s fresh p → subject.isResource = true →
    s.TakesPredicate subject →
    ∃ s1 new, (∀ predicate, p.Does iri subject predicate s fresh s1 new) ∧ s1.MayEnd subject ∧
      Leads s p.lexemes (.ok s1)
  | .more, p => ∀ {s fresh subject}, Ready iri s fresh p → subject.isResource = true →
    s.MayEnd subject →
    ∃ s1 new, (∀ predicate, p.Does iri subject predicate s fresh s1 new) ∧ s1.MayEnd subject ∧
      Leads s p.lexemes (.ok s1)

/-- The reader is ready for a part of a phrase, at a later state of the same depth. -/
theorem Ready.part {part other : Part} {p : Phrase ν part} {q : Phrase ν other}
    (h : Ready iri s fresh p)
    (hnamed : Named s1 new) (hkept : Kept s s1) (hnames : q.names ⊆ p.names)
    (hlexemes : q.lexemes ⊆ p.lexemes) (hdepth : q.depth + s1.waiting.length ≤ maxNesting) :
    Ready iri s1 new q := by
  refine ⟨hnamed, fun n hn => ?_, fun l hl => h.proper l (hlexemes hl), hdepth⟩
  rw [hkept.iri?_eq]
  exact h.resolves n (hnames hn)

/-- A phrase without marks and triples has no effect. -/
theorem Phrase.Does.still {part : Part} {p : Phrase ν part} (h : Named s fresh)
    (hmarks : p.marks = []) (hlabels : p.labels = [])
    (htriples : ∀ i, p.triples i subject predicate = []) :
    p.Does iri subject predicate s fresh s [] := by
  have heffect := @Effect.same ν s fresh iri h s.waiting s.expecting
  exact ⟨heffect.congr hmarks.symm hlabels.symm fun i _ _ => (htriples i).symm, rfl⟩

/-! ### Terms -/

theorem Phrase.runs_name (n : Name) : (name n : Phrase ν .resource).Runs iri := by
  intro s fresh target hready hs
  have hiri := hready.resolves n List.mem_cons_self
  have hbegins : n.lexeme.beginsTerm = true := by cases n <;> rfl
  refine ⟨s, [], .iri (iri n), fun _ _ => .still hready.named rfl rfl fun _ => rfl, rfl, ?_, ?_⟩
  · intro i hi _
    exact congrArg (fun f => Term.iri (f n)) hi.symm
  · refine .single ?_
    rw [State.step_term hs hbegins]
    simp only [State.beginTerm, hiri]
    rfl

theorem Phrase.runs_blank (label : String) : (blank label : Phrase ν .resource).Runs iri := by
  intro s fresh target hready hs
  have hlabel : label ≠ "" := hready.proper (.blank label) List.mem_cons_self
  obtain ⟨id, s1, hnode, -, hwaiting, htriples, hkept, hnamed, hlookup⟩ :=
    hready.named.nodeOfLabel hlabel
  refine ⟨s1, [], .blank id, fun _ _ => ⟨⟨hkept, ?_, rfl, ?_, fun _ _ _ => htriples⟩, hwaiting⟩,
    rfl, fun i _ ha => ha.labels hlookup, ?_⟩
  · exact (List.append_nil fresh).symm ▸ hnamed
  · exact List.forall_mem_singleton.2 (Option.isSome_iff_exists.2 ⟨_, hlookup⟩)
  · refine .single ?_
    rw [State.step_term hs rfl]
    simp only [State.beginTerm, State.iri?, hnode]
    rfl

def State.inBracket (s : State) (target : Target) : State :=
  { s with
    graph := s.graph.mint.2
    waiting := target :: s.waiting
    expecting := .firstPredicate (.blank s.graph.mint.1) }

theorem State.step_openBracket (hs : s.expecting = .term target)
    (hroom : s.waiting.length < maxNesting) :
    s.step (.punct .openBracket) = .ok (s.inBracket target) := by
  rw [step_term hs rfl]
  simp only [beginTerm, iri?, nest_eq_ok hroom]
  rfl

theorem Effect.inBracket (h : Named s fresh) (target : Target) (mark : ν) :
    Effect iri s fresh (s.inBracket target) [(mark, s.graph.mint.1)] [mark] [] fun _ => [] :=
  (Effect.mint h mark).move _ _

theorem Phrase.runs_emptyBracket (mark : ν) : (emptyBracket mark).Runs iri := by
  intro s fresh target hready hs
  have hroom : s.waiting.length < maxNesting := by
    have h := hready.shallow
    simp only [depth] at h
    omega
  let s1 : State := { s.inBracket target with waiting := s.waiting }
  refine ⟨s1, [(mark, s.graph.mint.1)], .blank s.graph.mint.1, fun _ _ => ⟨?_, rfl⟩, rfl, ?_, ?_⟩
  · exact (Effect.inBracket hready.named target mark).move _ _
  · intro i _ ha
    have h := ha.nodes (mark, s.graph.mint.1) (by simp)
    exact congrArg Term.blank h
  · refine .cons (State.step_openBracket hs hroom) (.single ?_)
    rfl

theorem State.step_closeBracket (h : s.MayEnd subject) {waiting : List Target}
    (hw : s.waiting = target :: waiting) :
    s.step (.punct .closeBracket) = { s with waiting }.deliver subject true target := by
  obtain ⟨predicate, he⟩ | he := h <;>
    simp [step, advance, he, predicateOr, predicate?, iri?, endSubject, hw, closeBracket]

theorem Phrase.runs_bracket (mark : ν) {content : Phrase ν .predicates} (h : content.Runs iri) :
    (bracket mark content).Runs iri := by
  intro s fresh target hready hs
  have hroom := hready.shallow
  simp only [depth] at hroom
  have hopen := @Effect.inBracket ν s fresh iri hready.named target mark
  have hinside : Ready iri (s.inBracket target) (fresh ++ [(mark, s.graph.mint.1)]) content := by
    refine hready.part hopen.named hopen.kept (fun _ hn => hn) (fun l hl => ?_) ?_
    · exact List.mem_append_left _ (List.mem_cons_of_mem _ hl)
    · simp only [State.inBracket, List.length_cons]
      omega
  obtain ⟨s1, new, hdoes, hend, hleads⟩ := h hinside rfl (.inr (.inl rfl))
  have hwaiting : s1.waiting = target :: s.waiting := (hdoes (.blank s.graph.mint.1)).2
  refine ⟨{ s1 with waiting := s.waiting }, [(mark, s.graph.mint.1)] ++ new,
    .blank s.graph.mint.1, fun _ b => ⟨?_, rfl⟩, rfl, ?_, ?_⟩
  · have hboth := (hopen.trans (hdoes b).1).move s.waiting s1.expecting
    apply hboth.congr rfl rfl
    intro i _ ha
    have hnode := ha.nodes (mark, s.graph.mint.1) (by simp)
    dsimp only at hnode
    rw [hnode]
    rfl
  · intro i _ ha
    have hnode := ha.nodes (mark, s.graph.mint.1) (by simp)
    exact congrArg Term.blank hnode
  · refine .cons (State.step_openBracket hs (by omega)) (hleads.snoc ?_ rfl)
    exact State.step_closeBracket hend hwaiting

def State.inParen (s : State) (target : Target) : State :=
  { s with waiting := target :: s.waiting, expecting := .term (.item []) }

theorem State.step_openParen (hs : s.expecting = .term target)
    (hroom : s.waiting.length < maxNesting) : s.step (.punct .openParen) = .ok (s.inParen target) := by
  rw [step_term hs rfl]
  simp only [beginTerm, iri?, nest_eq_ok hroom]
  rfl

/-- The reader behind a collection with the given items, whose cells take the labels. -/
def State.afterParen (s : State) (waiting : List Target) (items : List Term) : State :=
  { s with
    graph := (s.graph.mintMany items.length).2.addAll
      (chainTriples (((s.graph.mintMany items.length).1.map Term.blank).zip items))
    waiting }

theorem State.step_closeParen {items : List Term} (hs : s.expecting = .term (.item items.reverse))
    {waiting : List Target} (hw : s.waiting = target :: waiting)
    (hitems : ∀ item ∈ items, item.isTerm = true) :
    s.step (.punct .closeParen) =
      (s.afterParen waiting items).deliver
        (((s.graph.mintMany items.length).1.map Term.blank).headD (.iri Vocabulary.nil)) false
        target := by
  rw [step_of_expecting (by simp [hs])]
  have hlinks : ∀ link ∈ ((s.graph.mintMany items.length).1.map Term.blank).zip items,
      link.1.isResource = true ∧ link.2.isTerm = true := by
    intro link hlink
    obtain ⟨hcell, hitem⟩ := List.of_mem_zip hlink
    obtain ⟨label, -, hlabel⟩ := List.mem_map.1 hcell
    exact ⟨hlabel ▸ rfl, hitems _ hitem⟩
  simp only [advance, hs, closeCollection, hw, List.length_reverse, List.reverse_reverse,
    chain_eq_ok hlinks, afterParen]

theorem eq_map_of_zip {α β : Type} {f : α → β} {xs : List α} {ys : List β}
    (hlength : ys.length = xs.length) (h : ∀ entry ∈ xs.zip ys, entry.2 = f entry.1) :
    ys = xs.map f := by
  induction xs generalizing ys with
  | nil => simpa using hlength
  | cons x xs ih =>
    cases ys with
    | nil => simp at hlength
    | cons y ys =>
      obtain ⟨hy, hys⟩ := List.forall_mem_cons.1 h
      rw [List.map_cons, ← ih (by simpa using hlength) hys, ← show y = f x from hy]

/-- The cells of a collection take minted nodes when all its items have been read. -/
theorem Named.cells_eq (h : Named s fresh) {cells : List ν} {terms : List Term}
    (hlength : terms.length = cells.length) {i : Interpretation ν}
    (ha : ∀ entry ∈ cells.zip (s.graph.mintMany terms.length).1, entry.2 = i.node entry.1) :
    (s.graph.mintMany terms.length).1.map Term.blank = cells.map fun cell => .blank (i.node cell) := by
  rw [hlength] at ha ⊢
  rw [eq_map_of_zip (h.mintMany cells).2.1 ha, List.map_map]
  rfl

theorem Effect.afterParen (h : Named s fresh) {cells : List ν} {terms : List Term}
    (hlength : terms.length = cells.length) {termsOf : Interpretation ν → List Term}
    (hterms : ∀ i, i.iri = iri → Agrees i s fresh → terms = termsOf i) (waiting : List Target) :
    Effect iri s fresh (s.afterParen waiting terms)
      (cells.zip (s.graph.mintMany terms.length).1) cells [] fun i =>
        chainTriples ((cells.map fun cell => .blank (i.node cell)).zip (termsOf i)) := by
  have hmint := @Effect.mintMany ν s fresh iri h cells
  rw [← hlength] at hmint
  have hadd := @Effect.addAll ν _ _ iri (fun i =>
    chainTriples ((cells.map fun cell => .blank (i.node cell)).zip (termsOf i))) hmint.named
    (chainTriples (((s.graph.mintMany terms.length).1.map Term.blank).zip terms)) ?_
  · have hall := (hmint.trans hadd).move waiting s.expecting
    rw [List.append_nil] at hall
    exact hall.congr (List.append_nil cells) rfl fun _ _ _ => rfl
  · intro i hi ha
    have hcells := h.cells_eq hlength fun entry he => ha.nodes entry (List.mem_append_right _ he)
    rw [hcells, hterms i hi (ha.of_kept hmint.kept)]

theorem Phrase.runs_collection {items : Phrase ν .items} (h : items.Runs iri) :
    (collection items).Runs iri := by
  intro s fresh target hready hs
  have hroom := hready.shallow
  simp only [depth] at hroom
  have hopen : Effect iri s fresh (s.inParen target) [] [] [] fun _ => [] :=
    .same hready.named _ _
  have hinside : Ready iri (s.inParen target) (fresh ++ []) items := by
    refine hready.part hopen.named hopen.kept (fun _ hn => hn) (fun l hl => ?_) ?_
    · exact List.mem_append_left _ (List.mem_cons_of_mem _ hl)
    · simp only [State.inParen, List.length_cons]
      omega
  obtain ⟨s1, new, terms, hdoes, hterms, hlength, hagree, hleads⟩ := h hinside rfl
  rw [List.append_nil] at hagree hleads
  let s2 := s1.expect (.term (.item terms.reverse))
  have hitems : ∀ a b, Effect iri s fresh s2 new items.marks items.labels (items.triples · a b) :=
    fun a b => ((hopen.trans (hdoes a b).1).move s1.waiting _).congr rfl rfl fun _ _ _ => rfl
  have hnamed : Named s2 (fresh ++ new) := (hitems (.iri Vocabulary.nil) (.iri Vocabulary.nil)).named
  have hwaiting : s2.waiting = target :: s.waiting :=
    (hdoes (.iri Vocabulary.nil) (.iri Vocabulary.nil)).2
  have hcells := @Effect.afterParen ν s2 (fresh ++ new) iri hnamed items.cells terms hlength
    items.itemTerms (fun i hi ha => hagree i hi ⟨ha.labels, ha.nodes⟩) s.waiting
  refine ⟨s2.afterParen s.waiting terms, new ++ items.cells.zip (s2.graph.mintMany terms.length).1,
    ((s2.graph.mintMany terms.length).1.map Term.blank).headD (.iri Vocabulary.nil),
    fun a b => ⟨((hitems a b).trans hcells).congr rfl (List.append_nil _) fun _ _ _ => rfl, rfl⟩,
    ?_, fun i hi ha => ?_, ?_⟩
  · cases (s2.graph.mintMany terms.length).1 <;> rfl
  · have heq := hnamed.cells_eq hlength fun entry he =>
      ha.nodes entry (List.mem_append_right _ (List.mem_append_right _ he))
    rw [heq]
    rfl
  · refine .cons (State.step_openParen hs (by omega)) (hleads.snoc ?_ rfl)
    exact State.step_closeParen rfl hwaiting hterms

theorem Phrase.runs_resource {node : Phrase ν .resource} (h : node.Runs iri) :
    (resource node).Runs iri := by
  intro s fresh target hready hs htarget
  have hinside : Ready iri s fresh node :=
    ⟨hready.named, hready.resolves, hready.proper, hready.shallow⟩
  obtain ⟨s1, new, term, hdoes, hresource, hagree, hleads⟩ := h hinside hs
  refine ⟨s1, new, term, hdoes, Term.isTerm_of_isResource hresource, hagree, ?_⟩
  rwa [State.deliver_mayEnd htarget] at hleads

/-- A literal that is read with its last lexeme is handed over at once. -/
theorem Phrase.runs_of_deliver {literal : Constant} {l : Literal} (hready : Ready iri s fresh
    (constant literal : Phrase ν .object)) (hl : ∀ i : Interpretation ν, i.iri = iri →
      literal.literal i = l)
    (hleads : Leads s literal.lexemes (s.deliver (.literal l) false target)) :
    ∃ s1 new term, (∀ a b, (constant literal).Does iri a b s fresh s1 new) ∧
      term.isTerm = true ∧
      (∀ i : Interpretation ν, i.iri = iri → Agrees i s1 (fresh ++ new) →
        term = (constant literal).term i) ∧
      Leads s literal.lexemes (s1.deliver term false target) :=
  ⟨s, [], .literal l, fun _ _ => .still hready.named rfl rfl fun _ => rfl, rfl,
    fun i hi _ => congrArg Term.literal (hl i hi).symm, hleads⟩

theorem State.step_string (hs : s.expecting = .term target) (htarget : target ≠ .subject)
    (delimiter value : String) :
    s.step (.string delimiter value) = .ok (s.expect (.suffix value target)) := by
  rw [step_term hs rfl]
  simp [beginTerm, iri?, htarget]

/-- What was expected does not count when a term is handed over. -/
theorem State.deliver_expect (expecting : Expecting) (term : Term) (mayEnd : Bool) :
    (s.expect expecting).deliver term mayEnd target = s.deliver term mayEnd target := by
  cases target with
  | object subject predicate =>
    simp only [deliver, addTriple, expect]
    cases Refusal.checked (Triple.make subject predicate term) <;> rfl
  | subject | item _ => rfl

theorem State.step_suffix {value : String} (hl : l.isSuffix = false) :
    (s.expect (.suffix value target)).step l =
      match s.deliver (.literal ⟨value, none, none⟩) false target with
      | .error refusal => .error refusal
      | .ok s => s.advance l := by
  have hliteral := @deliverLiteral_eq (s.expect (.suffix value target)) target value none none
    (by simp) (.inl rfl)
  rw [deliver_expect] at hliteral
  rw [← hliteral]
  cases l <;> first | rfl | simp [Lexeme.isSuffix] at hl

/-- A string without a suffix is handed over when the next lexeme is none. -/
theorem leads_string (hs : s.expecting = .term target) (htarget : target ≠ .subject)
    (delimiter value : String) :
    Leads s [.string delimiter value] (s.deliver (.literal ⟨value, none, none⟩) false target) := by
  intro rest hrest
  obtain ⟨l, more, rfl, hfree⟩ := hrest
  have hstring : machine.step s (.string delimiter value) = .ok (s.expect (.suffix value target)) :=
    State.step_string hs htarget delimiter value
  have hnext : machine.step (s.expect (.suffix value target)) l = _ := State.step_suffix hfree
  simp only [List.singleton_append, Machine.runLexemes, hstring, hnext]
  cases hd : s.deliver (.literal ⟨value, none, none⟩) false target with
  | error refusal => rfl
  | ok s1 =>
    have hl : machine.step s1 l = s1.advance l := State.step_of_deliver hd
    simp only [Except.bind, hl]

theorem Phrase.runs_constant (literal : Constant) :
    (constant literal : Phrase ν .object).Runs iri := by
  intro s fresh target hready hs htarget
  cases literal with
  | number kind text =>
    refine runs_of_deliver hready (l := ⟨text, none, some (numberType kind)⟩) (fun _ _ => rfl)
      (.single ?_)
    have hkind : State.datatypeOf kind = numberType kind := by cases kind <;> rfl
    rw [State.step_term hs rfl]
    simp only [State.beginTerm, State.iri?, htarget, hkind, if_false]
    exact State.deliverLiteral_eq (by simp) (.inl rfl)
  | boolean text =>
    refine runs_of_deliver hready (l := ⟨text, none, some Vocabulary.boolean⟩) (fun _ _ => rfl)
      (.single ?_)
    rw [State.step_term hs rfl]
    simp only [State.beginTerm, State.iri?, htarget, if_false]
    exact State.deliverLiteral_eq (by simp) (.inl rfl)
  | string delimiter value suffix =>
    have hstring := State.step_string hs htarget delimiter value
    cases suffix with
    | nothing =>
      exact runs_of_deliver hready (fun _ _ => rfl) (leads_string hs htarget delimiter value)
    | language tag =>
      have htag : tag ≠ "" := hready.proper (.languageTag tag)
        (by simp [lexemes, Constant.lexemes, Suffix.lexemes])
      refine runs_of_deliver hready (l := ⟨value, some tag, none⟩) (fun _ _ => rfl)
        (.cons hstring (.single ?_))
      have hliteral := @State.deliverLiteral_eq (s.expect (.suffix value target)) target value
        (some tag) none (by simpa using htag) (.inr rfl)
      exact hliteral.trans (State.deliver_expect _ _ _)
    | datatype n =>
      have hiri := hready.resolves n (by simp [names, Constant.names, Suffix.names])
      refine runs_of_deliver hready (l := ⟨value, none, some (iri n)⟩) (fun i hi => ?_)
        (.cons hstring (.cons rfl (.single ?_)))
      · rw [← hi]
        rfl
      · have hliteral := @State.deliverLiteral_eq (s.expect (.datatype value target)) target value
          none (some (iri n)) (by simp) (.inl rfl)
        rw [State.deliver_expect] at hliteral
        rw [← hliteral, State.step_of_expecting (by simp [State.expect])]
        simp only [State.advance, State.expect, hiri]

/-! ### Rows of terms -/

theorem Phrase.runs_noItems : (noItems : Phrase ν .items).Runs iri := by
  intro s fresh done hready hs
  refine ⟨s, [], [], fun _ _ => .still hready.named rfl rfl fun _ => rfl, by simp, rfl,
    fun _ _ _ => rfl, ?_⟩
  have hsame : s.expect (.term (.item ([].reverse ++ done))) = s := by
    rw [State.expect, List.reverse_nil, List.nil_append, ← hs]
  rw [hsame]
  exact .nil s

theorem Phrase.runs_item (cell : ν) {first : Phrase ν .object} {rest : Phrase ν .items}
    (h1 : first.Runs iri) (h2 : rest.Runs iri) : (item cell first rest).Runs iri := by
  intro s fresh done hready hs
  have hshallow := hready.shallow
  simp only [depth] at hshallow
  have hready1 : Ready iri s fresh first :=
    hready.part hready.named (.refl s) (List.subset_append_left _ _) (List.subset_append_left _ _)
      (by omega)
  obtain ⟨s1, new1, term, hdoes1, hterm, hagree1, hleads1⟩ := h1 hready1 hs (by simp)
  let s2 := s1.expect (.term (.item (term :: done)))
  have hwaiting : s2.waiting = s.waiting := (hdoes1 term term).2
  have heffect1 : ∀ a b, Effect iri s fresh s2 new1 first.marks first.labels
      (first.triples · a b) := fun a b => (hdoes1 a b).1.move s1.waiting _
  have hready2 : Ready iri s2 (fresh ++ new1) rest :=
    hready.part (heffect1 term term).named (heffect1 term term).kept
      (List.subset_append_right _ _) (List.subset_append_right _ _) (by rw [hwaiting]; omega)
  obtain ⟨s3, new2, terms, hdoes2, hterms, hlength, hagree2, hleads2⟩ := h2 hready2 rfl
  refine ⟨s3, new1 ++ new2, term :: terms, fun a b => ⟨?_, (hdoes2 a b).2.trans hwaiting⟩,
    List.forall_mem_cons.2 ⟨hterm, hterms⟩, by simp [cells, hlength], fun i hi ha => ?_, ?_⟩
  · exact (heffect1 a b).trans (hdoes2 a b).1
  · rw [← List.append_assoc] at ha
    have hfirst := ha.of_kept (hdoes2 term term).1.kept
    rw [hagree1 i hi ⟨hfirst.labels, hfirst.nodes⟩, hagree2 i hi ha]
    rfl
  · have hterms : (term :: terms).reverse ++ done = terms.reverse ++ term :: done := by simp
    rw [hterms]
    exact hleads1.append hleads2 fun _ => rest.startsFree

theorem Phrase.runs_noObjects : (noObjects : Phrase ν .objects).Runs iri := by
  intro s fresh subject predicate hready _ _ hs
  exact ⟨s, [], .still hready.named rfl rfl fun _ => rfl, hs, .nil s⟩

/-- The reader behind an object adds its triple. -/
def State.afterObject (s : State) (subject predicate object : Term) : State :=
  { s with
    graph := s.graph.add ⟨subject, predicate, object⟩
    expecting := .more subject predicate }

/-- An object in its place: its own triples are added before the one that it is the object of. -/
theorem Phrase.Runs.at_object {first : Phrase ν .object} (h : first.Runs iri)
    (hs : subject.isResource = true) (hp : predicate.isIri = true)
    (hready : Ready iri s fresh first) (he : s.expecting = .term (.object subject predicate)) :
    ∃ s1 new, s1.expecting = .more subject predicate ∧ s1.waiting = s.waiting ∧
      Effect iri s fresh s1 new first.marks first.labels (fun i =>
        first.triples i subject predicate ++ [⟨subject, predicate, first.term i⟩]) ∧
      Leads s first.lexemes (.ok s1) := by
  obtain ⟨s1, new, term, hdoes, hterm, hagree, hleads⟩ := h hready he (by simp)
  obtain ⟨heffect, hwaiting⟩ := hdoes subject predicate
  rw [State.deliver_object hs hp hterm] at hleads
  refine ⟨s1.afterObject subject predicate term, new ++ [], rfl, hwaiting, ?_, hleads⟩
  have hadd := @Effect.addAll ν s1 (fresh ++ new) iri
    (fun i => [⟨subject, predicate, first.term i⟩]) heffect.named [⟨subject, predicate, term⟩]
    fun i hi ha => by rw [hagree i hi ha]
  have hboth := (heffect.trans hadd).move s1.waiting (.more subject predicate)
  exact hboth.congr (List.append_nil _) (List.append_nil _) fun _ _ _ => rfl

theorem Phrase.runs_nextObject {first : Phrase ν .object} {rest : Phrase ν .objects}
    (h1 : first.Runs iri) (h2 : rest.Runs iri) : (nextObject first rest).Runs iri := by
  intro s fresh subject predicate hready hs hp he
  have hshallow := hready.shallow
  simp only [depth] at hshallow
  let s0 := s.expect (.term (.object subject predicate))
  have hcomma : s.step (.punct .comma) = .ok s0 := by
    simp [State.step, State.advance, he, s0]
  have hopen : Effect iri s fresh s0 [] [] [] fun _ => [] := .same hready.named _ _
  have hready1 : Ready iri s0 (fresh ++ []) first := by
    refine hready.part hopen.named hopen.kept (List.subset_append_left _ _) (fun l hl => ?_) ?_
    · exact List.mem_append_left _ (List.mem_cons_of_mem _ hl)
    · exact Nat.le_trans (Nat.add_le_add_right (Nat.le_max_left _ _) _) hshallow
  obtain ⟨s1, new1, he1, hwaiting1, heffect1, hleads1⟩ := h1.at_object hs hp hready1 rfl
  have hboth := hopen.trans heffect1
  have hready2 : Ready iri s1 (fresh ++ ([] ++ new1)) rest := by
    refine hready.part hboth.named hboth.kept (List.subset_append_right _ _) ?_ ?_
    · exact List.subset_append_right _ _
    · rw [hwaiting1]
      exact Nat.le_trans (Nat.add_le_add_right (Nat.le_max_right _ _) _) hshallow
  obtain ⟨s2, new2, ⟨heffect2, hwaiting2⟩, he2, hleads2⟩ := h2 hready2 hs hp he1
  refine ⟨s2, [] ++ new1 ++ new2, ⟨?_, hwaiting2.trans hwaiting1⟩, he2, ?_⟩
  · apply (hboth.trans heffect2).congr rfl rfl
    intro i _ _
    simp [triples]
  · exact (Leads.cons hcomma hleads1).append hleads2 fun _ => rest.startsFree

/-! ### Predicates -/

/-- The predicate that a verb stands for. -/
def Verb.term (iri : Name → Iri) : Verb → Term
  | a => .iri Vocabulary.type
  | name n => .iri (iri n)

theorem Verb.term_eq {i : Interpretation ν} (hi : i.iri = iri) (verb : Verb) :
    Term.iri (verb.iri i) = verb.term iri := by
  rw [← hi]
  cases verb <;> rfl

theorem State.step_verb {verb : Verb} (h : s.TakesPredicate subject)
    (hverb : ∀ n ∈ verb.names, State.iri? s.graph n.lexeme = some (.ok (iri n))) :
    s.step verb.lexeme = .ok (s.expect (.term (.object subject (verb.term iri)))) := by
  have hor : ∀ otherwise, s.predicateOr subject verb.lexeme otherwise =
      .ok (s.expect (.term (.object subject (verb.term iri)))) := by
    intro otherwise
    cases verb with
    | a => rfl
    | name n =>
      have hn := hverb n List.mem_cons_self
      cases n <;> simp only [predicateOr, predicate?, Verb.lexeme, Name.lexeme] at hn ⊢ <;>
        simp only [hn, Verb.term]
  obtain he | he | he | he := h
  all_goals
    rw [step_of_expecting (by simp [he])]
    cases verb with
    | a => simpa only [advance, he, Verb.lexeme] using hor _
    | name n => cases n <;> simpa only [advance, he, Verb.lexeme, Name.lexeme] using hor _

theorem Phrase.runs_predicates (verb : Verb) {first : Phrase ν .object} {rest : Phrase ν .objects}
    {more : Phrase ν .more} (h1 : first.Runs iri) (h2 : rest.Runs iri) (h3 : more.Runs iri) :
    (predicates verb first rest more).Runs iri := by
  intro s fresh subject hready hs ht
  have hshallow := hready.shallow
  simp only [depth] at hshallow
  let predicate := verb.term iri
  let s0 := s.expect (.term (.object subject predicate))
  have hp : predicate.isIri = true := by cases verb <;> rfl
  have hverb : s.step verb.lexeme = .ok s0 :=
    State.step_verb ht fun n hn => hready.resolves n (by simp [names, hn])
  have hopen : Effect iri s fresh s0 [] [] [] fun _ => [] := .same hready.named _ _
  have hready1 : Ready iri s0 (fresh ++ []) first := by
    refine hready.part hopen.named hopen.kept (fun n hn => by simp [names, hn])
      (fun l hl => by simp [lexemes, hl]) ?_
    have hwaiting : s0.waiting = s.waiting := rfl
    rw [hwaiting]
    omega
  obtain ⟨s1, new1, he1, hwaiting1, heffect1, hleads1⟩ := h1.at_object hs hp hready1 rfl
  have hall1 := hopen.trans heffect1
  have hready2 : Ready iri s1 (fresh ++ ([] ++ new1)) rest := by
    refine hready.part hall1.named hall1.kept (fun n hn => by simp [names, hn])
      (fun l hl => by simp [lexemes, hl]) ?_
    have hwaiting : s1.waiting = s.waiting := hwaiting1
    rw [hwaiting]
    omega
  obtain ⟨s2, new2, ⟨heffect2, hwaiting2⟩, he2, hleads2⟩ := h2 hready2 hs hp he1
  have hall2 := hall1.trans heffect2
  have hready3 : Ready iri s2 (fresh ++ ([] ++ new1 ++ new2)) more := by
    refine hready.part hall2.named hall2.kept (fun n hn => by simp [names, hn])
      (fun l hl => by simp [lexemes, hl]) ?_
    have hwaiting : s2.waiting = s.waiting := hwaiting2.trans hwaiting1
    rw [hwaiting]
    omega
  obtain ⟨s3, new3, hdoes3, hend, hleads3⟩ := h3 hready3 hs (.inl ⟨predicate, he2⟩)
  refine ⟨s3, [] ++ new1 ++ new2 ++ new3, fun b => ⟨?_, ?_⟩, hend, ?_⟩
  · apply (hall2.trans (hdoes3 predicate).1).congr rfl rfl
    intro i hi _
    simp [triples, verb.term_eq hi, predicate]
  · exact ((hdoes3 predicate).2.trans hwaiting2).trans hwaiting1
  · have hrow := ((Leads.cons hverb hleads1).append hleads2 fun _ => rest.startsFree).append hleads3
      fun _ => more.startsFree
    simpa [lexemes] using hrow

theorem Phrase.runs_noMore : (noMore : Phrase ν .more).Runs iri := by
  intro s fresh subject hready _ hend
  exact ⟨s, [], fun _ => .still hready.named rfl rfl fun _ => rfl, hend, .nil s⟩

theorem State.step_semicolon (h : s.MayEnd subject) :
    s.step (.punct .semicolon) = .ok (s.expect (.nextPredicate subject)) := by
  obtain ⟨predicate, he⟩ | he := h
  · simp [step, advance, he]
  · have hsame : s.expect (.nextPredicate subject) = s := by rw [expect, ← he]
    simp [step, advance, he, hsame]

theorem Phrase.runs_semicolon {rest : Phrase ν .more} (h : rest.Runs iri) :
    (semicolon rest).Runs iri := by
  intro s fresh subject hready hs hend
  let s0 := s.expect (.nextPredicate subject)
  have hopen : Effect iri s fresh s0 [] [] [] fun _ => [] := .same hready.named _ _
  have hready1 : Ready iri s0 (fresh ++ []) rest :=
    hready.part hopen.named hopen.kept (fun _ hn => hn)
      (fun l hl => List.mem_cons_of_mem _ hl) hready.shallow
  obtain ⟨s1, new, hdoes, hend1, hleads⟩ := h hready1 hs (.inr rfl)
  refine ⟨s1, [] ++ new, fun b => ⟨hopen.trans (hdoes b).1, (hdoes b).2⟩, hend1, ?_⟩
  exact .cons (State.step_semicolon hend) hleads

theorem Phrase.runs_nextPredicates {content : Phrase ν .predicates} (h : content.Runs iri) :
    (nextPredicates content).Runs iri := by
  intro s fresh subject hready hs hend
  let s0 := s.expect (.nextPredicate subject)
  have hopen : Effect iri s fresh s0 [] [] [] fun _ => [] := .same hready.named _ _
  have hready1 : Ready iri s0 (fresh ++ []) content :=
    hready.part hopen.named hopen.kept (fun _ hn => hn)
      (fun l hl => List.mem_cons_of_mem _ hl) hready.shallow
  obtain ⟨s1, new, hdoes, hend1, hleads⟩ := h hready1 hs (.inr (.inr (.inr rfl)))
  refine ⟨s1, [] ++ new, fun b => ⟨hopen.trans (hdoes b).1, (hdoes b).2⟩, hend1, ?_⟩
  exact .cons (State.step_semicolon hend) hleads

/-- The reader takes each phrase where it expects one. -/
theorem Phrase.runs {part : Part} (p : Phrase ν part) : p.Runs iri := by
  induction p with
  | name n => exact runs_name n
  | blank label => exact runs_blank label
  | emptyBracket mark => exact runs_emptyBracket mark
  | bracket mark content ih => exact runs_bracket mark ih
  | collection items ih => exact runs_collection ih
  | resource node ih => exact runs_resource ih
  | constant literal => exact runs_constant literal
  | noItems => exact runs_noItems
  | item cell first rest ih1 ih2 => exact runs_item cell ih1 ih2
  | noObjects => exact runs_noObjects
  | nextObject first rest ih1 ih2 => exact runs_nextObject ih1 ih2
  | predicates verb first rest more ih1 ih2 ih3 => exact runs_predicates verb ih1 ih2 ih3
  | noMore => exact runs_noMore
  | semicolon rest ih => exact runs_semicolon ih
  | nextPredicates content ih => exact runs_nextPredicates ih

end Rdf.Turtle

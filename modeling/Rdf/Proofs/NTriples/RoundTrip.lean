import Rdf.NTriples.Printer
import Rdf.NTriples.Reader
import Rdf.Proofs.Document.Runs
import Rdf.Proofs.Document.Spelling
import Rdf.Proofs.Graph.Insertion
import Rdf.Proofs.Term.Validity

/-!
Lines of N-Triples read back.

Each triple is written in a line of its own, which reads as the lexemes of its three terms and the
dot. The machine takes them from one state before a subject to the next and adds the triple, unless
an identifier is relative.
-/

namespace Rdf

open Scan Spelling

/-! ### Texts without an end of a line -/

def InLine (text : List Char) : Prop := ∀ c ∈ text, endsLine c = false

namespace InLine

variable {first second : List Char} {c : Char}

theorem nil : InLine [] := by simp [InLine]

theorem cons (hc : endsLine c = false) (h : InLine second) : InLine (c :: second) :=
  List.forall_mem_cons.2 ⟨hc, h⟩

theorem append (h1 : InLine first) (h2 : InLine second) : InLine (first ++ second) :=
  List.forall_mem_append.2 ⟨h1, h2⟩

theorem flatMap {write : Char → List Char} (h : ∀ c, InLine (write c)) (value : List Char) :
    InLine (value.flatMap write) := by
  intro c hc
  obtain ⟨d, -, hd⟩ := List.mem_flatMap.1 hc
  exact h d c hd

/-- Characters of a kind that no end of a line has stay in the line. -/
theorem of_kind {kind : Char → Bool} (hkind : kind '\r' = false ∧ kind '\n' = false)
    {text : List Char} (h : ∀ c ∈ text, kind c = true) : InLine text := by
  intro c hc
  have hk := h c hc
  rw [Bool.eq_false_iff]
  intro hend
  have hcases : c = '\r' ∨ c = '\n' := by simpa [endsLine] using hend
  cases hcases with
  | inl he => simp [he, hkind.1] at hk
  | inr he => simp [he, hkind.2] at hk

theorem shortEscape (c : Char) : InLine (shortEscape c) := by
  have hdigits : InLine (Text.hexDigits .upper 4 c.toNat) :=
    @of_kind Text.isHex (by decide) _
      (List.all_eq_true.1 (Text.all_isHex_hexDigits .upper 4 c.toNat))
  exact cons rfl (cons rfl hdigits)

theorem iriRef (value : String) : InLine (iriRef value) := by
  have hchar : ∀ c, InLine (iriChar c) := by
    intro c
    by_cases hc : isIriEscaped c = true
    · simpa only [iriChar, hc, if_true] using shortEscape c
    · have hkind : ∀ d ∈ [c], (!isIriEscaped d) = true := by simpa using hc
      rw [iriChar, if_neg hc]
      exact of_kind (by decide) hkind
  exact cons rfl ((flatMap hchar _).append (cons rfl nil))

theorem string (value : String) : InLine (string value) := by
  have hchar : ∀ c, InLine (stringChar c) := by
    intro c
    unfold stringChar
    repeat' split
    all_goals first | exact cons rfl (cons rfl nil) | exact shortEscape c | skip
    next hfeed hreturn _ _ =>
      exact cons (by simp [endsLine, hfeed, hreturn]) nil
  exact cons rfl ((flatMap hchar _).append (cons rfl nil))

theorem blank {id : String} (h : isBlankLabel id.toList = true) : InLine id.toList := by
  have hkind : ∀ c ∈ id.toList, (c == '.' || Text.isNameChar c) = true := by
    cases hid : id.toList with
    | nil => simp
    | cons c tail =>
      simp only [hid, isBlankLabel, isLabelTail, Bool.and_eq_true, List.all_eq_true] at h
      obtain ⟨hc, htail, -⟩ := h
      refine List.forall_mem_cons.2 ⟨?_, htail⟩
      cases Bool.or_eq_true_iff.1 hc with
      | inl hc => simp [Text.isNameChar, hc]
      | inr hc => simp [Text.isNameChar, hc]
  exact of_kind (by decide) hkind

theorem languageTag {tag : String} (h : isLanguageTag tag.toList = true) : InLine tag.toList := by
  have htaken := (Pattern.fits_iff Pattern.exact_languageTag).1 h
  exact of_kind (by decide) (Pattern.takes_languageTag htaken)

end InLine

namespace NTriples

variable {g : Graph} {t : Triple} {subject predicate : Term} {rest : List Char}
  {later : List Lexeme}

/-! ### Writing -/

def termLexemes : Term → List Lexeme
  | .iri name => [.iri name.value]
  | .blank id => [.blank id]
  | .literal l => literalLexemes (fun name => .iri name.value) l
  | .plain _ => []

def lineLexemes (t : Triple) : List Lexeme :=
  termLexemes t.subject ++ termLexemes t.predicate ++ termLexemes t.object ++ [.punct .dot]

theorem literal_written {l : Literal} (hv : l.Valid)
    (hw : ∀ tag ∈ l.language, isLanguageTag tag.toList = true) :
    ∃ text, term (.literal l) = .ok text ∧ InLine text ∧ Spells text (termLexemes (.literal l)) := by
  obtain ⟨-, hs, -⟩ := hv
  have hspells := Spells.literal hs hw fun name _ => Spells.iri name.value
  obtain ⟨value, language, datatype⟩ := l
  have hvalue := InLine.string value
  cases language with
  | some tag =>
    have htag := hw tag rfl
    obtain rfl : datatype = none := by simpa using hs
    refine ⟨_, ?_, hvalue.append (.cons rfl (.languageTag htag)), hspells⟩
    have hcheck : checkLiteral ⟨value, some tag, none⟩ = .ok () := by simp [checkLiteral, htag]
    simp only [term, hcheck]
    rfl
  | none =>
    cases datatype with
    | some name =>
      exact ⟨_, rfl, hvalue.append (.cons rfl (.cons rfl (.iriRef name.value))), hspells⟩
    | none => exact ⟨_, rfl, hvalue.append .nil, hspells⟩

theorem term_written {t : Term} (hv : t.Valid) (hw : t.Writable) :
    ∃ text, term t = .ok text ∧ InLine text ∧ Spells text (termLexemes t) := by
  cases t with
  | iri name => exact ⟨iriRef name.value, rfl, .iriRef name.value, .iri name.value⟩
  | blank id =>
    have hlabel : isBlankLabel id.toList = true := hw
    exact ⟨'_' :: ':' :: id.toList, by simp [term, Spelling.blank, hlabel],
      .cons rfl (.cons rfl (.blank hlabel)), .blank hlabel⟩
  | literal l => exact literal_written hv hw
  | plain value => exact hv.elim

theorem writable_of_isIri {p : Term} (h : p.isIri = true) : p.Writable := by
  cases p with
  | iri _ => trivial
  | blank _ | literal _ | plain _ => simp [Term.isIri] at h

/-- The line of a triple ends with its only line feed and has no carriage return. -/
theorem line_written (hv : t.Valid) (hw : t.Writable) :
    ∃ body, line t = .ok (body ++ ['\n']) ∧ InLine body ∧ ∀ {rest later},
      Reads rest later → Reads (body ++ '\n' :: rest) (lineLexemes t ++ later) := by
  obtain ⟨hform, hs, hp, ho⟩ := hv
  obtain ⟨subject, hsubject, hsline, hsreads⟩ := term_written hs hw.1
  obtain ⟨predicate, hpredicate, hpline, hpreads⟩ := term_written hp (writable_of_isIri hform.2.1)
  obtain ⟨object, hobject, holine, horeads⟩ := term_written ho hw.2
  refine ⟨subject ++ ' ' :: predicate ++ ' ' :: object ++ [' ', '.'], ?_, ?_, fun h => ?_⟩
  · have hcheck := (checkTriple_eq_ok_iff t).2 hform
    simp only [line, hcheck, hsubject, hpredicate, hobject, bind, Except.bind, pure, Except.pure]
    simp
  · have hend : InLine [' ', '.'] := .cons rfl (.cons rfl .nil)
    exact ((hsline.append (.cons rfl hpline)).append (.cons rfl holine)).append hend
  · have hfeed := h.layout (c := '\n') rfl
    have hdot := (Reads.punct .dot (fun _ => .cons (by decide) _) (hfeed false)).space
    have hspace : ∀ more, AtSeparator (' ' :: more) := .cons (by decide)
    have hobject := (horeads (hspace _) hdot).space
    have hpredicate := (hpreads (hspace _) hobject).space
    simpa [lineLexemes, Punct.toChar] using hsreads (hspace _) hpredicate

theorem lines_written {ts : List Triple} (hts : ∀ t ∈ ts, t.Valid ∧ t.Writable) :
    ∃ lines, ts.mapM line = .ok lines ∧
      (∀ text ∈ lines, ∃ body, text = body ++ ['\n'] ∧ InLine body) ∧
      Reads lines.flatten (ts.flatMap lineLexemes ++ [.eof]) := by
  induction ts with
  | nil => exact ⟨[], rfl, by simp, Reads.nil⟩
  | cons t ts ih =>
    obtain ⟨hv, hw⟩ := hts t List.mem_cons_self
    obtain ⟨body, hline, hbody, hreads⟩ := line_written hv hw
    obtain ⟨lines, hlines, hends, hrest⟩ := ih fun u hu => hts u (List.mem_cons_of_mem t hu)
    refine ⟨(body ++ ['\n']) :: lines, ?_, ?_, ?_⟩
    · rw [List.mapM_cons, hline, hlines]
      rfl
    · exact List.forall_mem_cons.2 ⟨⟨body, rfl, hbody⟩, hends⟩
    · simpa using hreads hrest

/-! ### Reading -/

theorem iri_eq_ok {name : Iri} (h : name.isAbsolute = true) (role : Role) :
    State.iri role (.iri name.value) = .ok name := by
  have hscheme : hasScheme name.value.toList = true := h
  simp [State.iri, hscheme, Iri.ofText_value (.of_isAbsolute h), Refusal.checked]

theorem iri_eq_error {name : Iri} (h : ¬name.isAbsolute = true) (role : Role) :
    State.iri role (.iri name.value) = .error (.grammar .lineRelativeIri) := by
  have hscheme : ¬hasScheme name.value.toList = true := h
  simp [State.iri, hscheme, Refusal.refuse]

theorem blank_eq_ok {id : String} (hid : id ≠ "") (s : State) :
    ∃ g, s.blank id = .ok (.blank id, { s with graph := g }) ∧ g.triples = s.graph.triples := by
  refine ⟨s.graph.see id, ?_, Graph.see_triples s.graph id⟩
  simp [State.blank, Graph.reserve, Term.ofBlankId, hid, bind, Except.bind, pure, Except.pure,
    Refusal.checked, Term.blankId?]

theorem subject_read (hform : subject.isResource = true) (hv : subject.Valid)
    (ha : subject.Absolute) (g : Graph) :
    ∃ g', machine.runLexemes ⟨g, .subject⟩ (termLexemes subject) =
        .ok ⟨g', .predicate subject⟩ ∧ g'.triples = g.triples := by
  cases subject with
  | iri name =>
    refine ⟨g, ?_, rfl⟩
    simp [termLexemes, Machine.runLexemes, machine, State.step, iri_eq_ok ha, State.expect]
  | blank id =>
    obtain ⟨g', hblank, hg⟩ := blank_eq_ok hv ⟨g, .subject⟩
    refine ⟨g', ?_, hg⟩
    simp [termLexemes, Machine.runLexemes, machine, State.step, hblank, State.expect]
  | literal l => simp [Term.isResource] at hform
  | plain value => simp [Term.isResource] at hform

theorem predicate_read (hform : predicate.isIri = true) (ha : predicate.Absolute) (g : Graph) :
    machine.runLexemes ⟨g, .predicate subject⟩ (termLexemes predicate) =
      .ok ⟨g, .object subject predicate⟩ := by
  cases predicate with
  | iri name =>
    simp [termLexemes, Machine.runLexemes, machine, State.step, iri_eq_ok ha, State.expect]
  | blank _ | literal _ | plain _ => simp [Term.isIri] at hform

theorem endLine_eq_ok (h : t.WellFormed) (s : State) :
    s.endLine t.subject t.predicate t.object (.punct .dot) = .ok ⟨s.graph.add t, .subject⟩ := by
  have hmake := Triple.make_eq_ok_iff.2 ⟨rfl, h⟩
  simp [State.endLine, hmake, Refusal.checked, State.expect]

theorem literal_read {l : Literal} (hform : t.WellFormed) (ho : t.object = .literal l)
    (hv : l.Valid) (ha : ∀ iri ∈ l.datatype, iri.isAbsolute = true) (g : Graph) :
    machine.runLexemes ⟨g, .object t.subject t.predicate⟩
      (termLexemes (.literal l) ++ [.punct .dot]) = .ok ⟨g.add t, .subject⟩ := by
  have hend := endLine_eq_ok hform
  rw [ho] at hend
  have hsingle := hv.single
  obtain ⟨value, language, datatype⟩ := l
  cases language with
  | some tag =>
    obtain rfl : datatype = none := by simpa using hsingle
    have hmake : Literal.make (.text value) (some tag) none = .ok ⟨value, some tag, none⟩ :=
      hv.make_eq_ok
    simp [termLexemes, literalLexemes, Machine.runLexemes, machine, State.step, State.expect,
      State.literal, hmake, Refusal.checked, hend]
  | none =>
    cases datatype with
    | some iri =>
      have hmake : Literal.make (.text value) none (some (.proper iri)) =
        .ok ⟨value, none, some iri⟩ := hv.make_eq_ok
      have hiri := iri_eq_ok (ha iri rfl)
      simp [termLexemes, literalLexemes, Machine.runLexemes, machine, State.step, State.expect,
        State.literal, hiri, hmake, Refusal.checked, hend]
    | none =>
      have hmake : Literal.make (.text value) none none = .ok ⟨value, none, none⟩ :=
        hv.make_eq_ok
      simp [termLexemes, literalLexemes, Machine.runLexemes, machine, State.step, State.expect, hmake,
        Refusal.checked, hend]

theorem object_read (hform : t.WellFormed) (hv : t.object.Valid) (ha : t.object.Absolute)
    (g : Graph) :
    ∃ g', machine.runLexemes ⟨g, .object t.subject t.predicate⟩
        (termLexemes t.object ++ [.punct .dot]) = .ok ⟨g', .subject⟩ ∧
      g'.triples = (g.add t).triples := by
  have hend := endLine_eq_ok hform
  cases ho : t.object with
  | iri name =>
    rw [ho] at ha hend
    refine ⟨g.add t, ?_, rfl⟩
    simp [termLexemes, Machine.runLexemes, machine, State.step, iri_eq_ok ha, State.expect, hend]
  | blank id =>
    rw [ho] at hv hend
    obtain ⟨g', hblank, hg⟩ := blank_eq_ok hv ⟨g, .object t.subject t.predicate⟩
    refine ⟨g'.add t, ?_, Graph.add_congr hg t⟩
    simp [termLexemes, Machine.runLexemes, machine, State.step, hblank, State.expect, hend]
  | literal l =>
    rw [ho] at hv ha
    exact ⟨g.add t, literal_read hform ho hv ha g, rfl⟩
  | plain value =>
    rw [ho] at hv
    exact hv.elim

theorem line_read (hv : t.Valid) (ha : t.Absolute) (g : Graph) :
    ∃ g', machine.runLexemes ⟨g, .subject⟩ (lineLexemes t) = .ok ⟨g', .subject⟩ ∧
      g'.triples = (g.add t).triples := by
  obtain ⟨hform, hs, hp, ho⟩ := hv
  obtain ⟨g1, hsubject, hg1⟩ := subject_read hform.1 hs ha.1 g
  have hpredicate := @predicate_read t.subject _ hform.2.1 ha.2.1 g1
  obtain ⟨g2, hobject, hg2⟩ := object_read hform ho ha.2.2 g1
  refine ⟨g2, ?_, hg2.trans (Graph.add_congr hg1 t)⟩
  rw [lineLexemes, List.append_assoc, List.append_assoc,
    machine.runLexemes_append_of_ok hsubject, machine.runLexemes_append_of_ok hpredicate, hobject]

/-- A relative identifier is refused where a subject or a predicate stands. -/
theorem subject_refused (hform : subject.isResource = true) (ha : ¬subject.Absolute) (g : Graph) :
    machine.runLexemes ⟨g, .subject⟩ (termLexemes subject) =
      .error (.grammar .lineRelativeIri) := by
  cases subject with
  | iri name =>
    simp [termLexemes, Machine.runLexemes, machine, State.step, iri_eq_error ha]
  | blank id => exact (ha trivial).elim
  | literal _ | plain _ => simp [Term.isResource] at hform

theorem predicate_refused (hform : predicate.isIri = true) (ha : ¬predicate.Absolute) (g : Graph) :
    machine.runLexemes ⟨g, .predicate subject⟩ (termLexemes predicate) =
      .error (.grammar .lineRelativeIri) := by
  cases predicate with
  | iri name =>
    simp [termLexemes, Machine.runLexemes, machine, State.step, iri_eq_error ha]
  | blank _ | literal _ | plain _ => simp [Term.isIri] at hform

theorem object_refused {object : Term} (hv : object.Valid) (ha : ¬object.Absolute) (g : Graph) :
    machine.runLexemes ⟨g, .object subject predicate⟩ (termLexemes object) =
      .error (.grammar .lineRelativeIri) := by
  cases object with
  | iri name =>
    simp [termLexemes, Machine.runLexemes, machine, State.step, iri_eq_error ha]
  | blank id => exact (ha trivial).elim
  | literal l =>
    have hsingle := hv.single
    obtain ⟨value, language, datatype⟩ := l
    obtain ⟨iri, rfl, hiri⟩ : ∃ iri, datatype = some iri ∧ ¬iri.isAbsolute = true := by
      simpa [Term.Absolute] using ha
    obtain rfl : language = none := by simpa using hsingle
    simp [termLexemes, literalLexemes, Machine.runLexemes, machine, State.step, State.expect,
      iri_eq_error hiri]
  | plain value => exact hv.elim

/-- A line with a relative identifier is refused wherever the identifier stands. -/
theorem line_refused (hv : t.Valid) (ha : ¬t.Absolute) (g : Graph) :
    machine.runLexemes ⟨g, .subject⟩ (lineLexemes t) = .error (.grammar .lineRelativeIri) := by
  obtain ⟨hform, hs, hp, ho⟩ := hv
  simp only [lineLexemes, List.append_assoc]
  by_cases has : t.subject.Absolute
  · obtain ⟨g1, hsubject, -⟩ := subject_read hform.1 hs has g
    rw [machine.runLexemes_append_of_ok hsubject]
    by_cases hap : t.predicate.Absolute
    · have hao : ¬t.object.Absolute := fun hao => ha ⟨has, hap, hao⟩
      rw [machine.runLexemes_append_of_ok (predicate_read hform.2.1 hap g1)]
      exact machine.runLexemes_append_of_error (object_refused ho hao g1) _
    · exact machine.runLexemes_append_of_error (predicate_refused hform.2.1 hap g1) _
  · exact machine.runLexemes_append_of_error (subject_refused hform.1 has g) _

theorem lines_read {ts : List Triple} (hts : ∀ t ∈ ts, t.Valid ∧ t.Absolute) (g : Graph) :
    ∃ g', machine.runLexemes ⟨g, .subject⟩ (ts.flatMap lineLexemes) = .ok ⟨g', .subject⟩ ∧
      g'.triples = (g.addAll ts).triples := by
  induction ts generalizing g with
  | nil => exact ⟨g, rfl, rfl⟩
  | cons t ts ih =>
    obtain ⟨hv, ha⟩ := hts t List.mem_cons_self
    obtain ⟨g1, hline, hg1⟩ := line_read hv ha g
    obtain ⟨g2, hlines, hg2⟩ := ih (fun u hu => hts u (List.mem_cons_of_mem t hu)) g1
    refine ⟨g2, ?_, hg2.trans (Graph.addAll_congr hg1 ts)⟩
    rw [List.flatMap_cons, machine.runLexemes_append_of_ok hline, hlines]

/-- The lines are refused at the first relative identifier. -/
theorem lines_refused {ts : List Triple} (hts : ∀ t ∈ ts, t.Valid)
    (ha : ∃ t ∈ ts, ¬t.Absolute) (g : Graph) :
    machine.runLexemes ⟨g, .subject⟩ (ts.flatMap lineLexemes) =
      .error (.grammar .lineRelativeIri) := by
  induction ts generalizing g with
  | nil => simp at ha
  | cons t ts ih =>
    have hv := hts t List.mem_cons_self
    rw [List.flatMap_cons]
    by_cases hat : t.Absolute
    · obtain ⟨g1, hline, -⟩ := line_read hv hat g
      have hrest : ∃ u ∈ ts, ¬u.Absolute := by
        obtain ⟨u, hu, hau⟩ := ha
        cases List.mem_cons.1 hu with
        | inl he => exact (hau (he ▸ hat)).elim
        | inr hu => exact ⟨u, hu, hau⟩
      rw [machine.runLexemes_append_of_ok hline]
      exact ih (fun u hu => hts u (List.mem_cons_of_mem t hu)) hrest g1
    · exact machine.runLexemes_append_of_error (line_refused hv hat g) _

/-! ### Round trip -/

/-- The lines of triples that can be written read back as those triples, in their order and without
repetition, unless an identifier is relative; then they are refused. Only its line feed ends each of
the lines. -/
theorem read_lines {ts : List Triple} (source : SourceName)
    (hts : ∀ t ∈ ts, t.Valid ∧ t.Writable) :
    ∃ lines, ts.mapM line = .ok lines ∧
      (∀ text ∈ lines, ∃ body, text = body ++ ['\n'] ∧ '\n' ∉ body ∧ '\r' ∉ body) ∧
      ((∀ t ∈ ts, t.Absolute) →
        ∃ g, read (String.ofList lines.flatten) source = .ok g ∧ g.triples = ts.eraseDups) ∧
      ((∃ t ∈ ts, ¬t.Absolute) →
        ∃ place token, read (String.ofList lines.flatten) source =
          .error (.document ⟨source, place, .grammar .lineRelativeIri token⟩)) := by
  have hv : ∀ t ∈ ts, t.Valid := fun t ht => (hts t ht).1
  obtain ⟨lines, hlines, hends, hreads⟩ := lines_written hts
  obtain ⟨tokens, hscan, hmap⟩ := hreads.scanAll
  refine ⟨lines, hlines, fun text htext => ?_, fun ha => ?_, fun ha => ?_⟩
  · obtain ⟨body, rfl, hbody⟩ := hends text htext
    refine ⟨body, rfl, fun hfeed => ?_, fun hreturn => ?_⟩
    · exact Bool.noConfusion (hbody _ hfeed)
    · exact Bool.noConfusion (hbody _ hreturn)
  · obtain ⟨g, hrun, hg⟩ := lines_read (fun t ht => ⟨hv t ht, ha t ht⟩) {}
    have hend : machine.runLexemes {} (tokens.map (·.lexeme)) = .ok ⟨g, .nothing⟩ := by
      rw [hmap, machine.runLexemes_append_of_ok hrun]
      rfl
    refine ⟨g, ?_, hg.trans (Graph.triples_addAll fun t ht => (hv t ht).wellFormed)⟩
    rw [read, readTokens, hscan]
    exact machine.read_eq_ok_iff.2 ⟨_, hend, rfl⟩
  · have hrun := machine.runLexemes_append_of_error (lines_refused hv ha {}) [.eof]
    rw [← hmap] at hrun
    obtain ⟨token, -, hread⟩ := @Machine.read_eq_error _ _ machine _ _ source _ hrun
    exact ⟨token.place, token, by rw [read, readTokens, hscan]; exact hread⟩

theorem read_lines_repeated :
    let first : Triple :=
      ⟨.blank "b.0", .iri ⟨"urn:a b"⟩, .literal ⟨"\"\\\n\r\x00", some "en-GB", none⟩⟩
    let second : Triple := ⟨.iri ⟨"urn:<c>"⟩, .iri ⟨"urn:a b"⟩, .literal ⟨"", none, some ⟨"urn:\t"⟩⟩⟩
    ∃ lines g, [first, second, first].mapM line = .ok lines ∧
      read (String.ofList lines.flatten) (.text "lines") = .ok g ∧ g.triples = [first, second] := by
  intro first second
  have hts : ∀ t ∈ [first, second, first], t.Valid ∧ t.Writable := by decide +kernel
  have ha : ∀ t ∈ [first, second, first], t.Absolute := by decide +kernel
  obtain ⟨lines, hlines, -, hread, -⟩ := read_lines (.text "lines") hts
  obtain ⟨g, hg, htriples⟩ := hread ha
  exact ⟨lines, g, hlines, hg, htriples⟩

end NTriples

end Rdf

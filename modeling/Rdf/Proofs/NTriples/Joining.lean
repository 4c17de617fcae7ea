import Rdf.Proofs.Document.Outcome
import Rdf.Proofs.Token.Joining

/-!
Documents of N-Triples that are joined by a line feed.

A document that is read leads back to the state in which a line begins. From there the reader goes
through the second document as from the start: only the graph has the triples of the first document
in it already.
-/

namespace Rdf

/-! ### Errors further down -/

/-- The fault of the same kind, whose token stands further down. -/
def ReadFault.down (lines : Int) : ReadFault → ReadFault
  | lexical fault => lexical fault
  | grammar fault token => grammar fault (token.down lines)
  | resolution fault => resolution fault

theorem ReadFault.message_down (lines : Int) (fault : ReadFault) :
    (fault.down lines).message = fault.message := by
  cases fault <;> rfl

def ReadError.down (lines : Int) (error : ReadError) : ReadError :=
  ⟨error.source, error.place.down lines, error.fault.down lines⟩

def ReadFailure.down (lines : Int) : ReadFailure → ReadFailure
  | document error => document (error.down lines)
  | argument fault => argument fault
  | unfinished => unfinished

theorem ReadFailure.down_ofRefusal (lines : Int) (source : SourceName) (token : Token)
    (refusal : Refusal) : ofRefusal source (token.down lines) refusal =
      (ofRefusal source token refusal).down lines := by
  cases refusal <;> rfl

/-! ### Runs that go alike -/

/-- Both computations give results that are related, or faults that are. -/
inductive Alike {ε ε' α β : Type} (faults : ε → ε' → Prop) (results : α → β → Prop) :
    Except ε α → Except ε' β → Prop
  | ok {a : α} {b : β} (h : results a b) : Alike faults results (.ok a) (.ok b)
  | error {e : ε} {e' : ε'} (h : faults e e') : Alike faults results (.error e) (.error e')

namespace Machine

variable {σ α : Type} (machine : Machine σ α) {related : σ → σ → Prop} {results : α → α → Prop}
  (hstep : ∀ {s t : σ} (l : Lexeme), related s t →
    Alike (· = ·) related (machine.step s l) (machine.step t l))
  {s t : σ}

include hstep

/-- Related states stay so over tokens that stand further down for one of them. -/
theorem run_alike (lines : Int) (h : related s t) (tokens : List Token) :
    Alike (fun refused refused' => refused' = (refused.1.down lines, refused.2)) related
      (machine.run s tokens) (machine.run t (tokens.map (Token.down lines))) := by
  induction tokens generalizing s t with
  | nil => exact .ok h
  | cons token tokens ih =>
    have hnext := hstep token.lexeme h
    have hdown : (token.down lines).lexeme = token.lexeme := rfl
    rw [List.map_cons, run, run, hdown]
    generalize machine.step s token.lexeme = first, machine.step t token.lexeme = second at hnext ⊢
    cases hnext with
    | ok hnext => exact ih hnext
    | error hrefusal => exact .error (by rw [hrefusal])

/-- From related states a machine reads what is related, or fails further down. -/
theorem read_alike
    (hresult : ∀ {s t : σ}, related s t →
      Option.Rel results (machine.result? s) (machine.result? t))
    (lines : Int) (h : related s t) (source : SourceName) (found : Tokens) :
    Alike (fun failure failure' => failure' = failure.down lines) results
      (machine.read source s found) (machine.read source t (found.down lines)) := by
  have hrun := machine.run_alike hstep lines h found.tokens
  simp only [read, Tokens.down]
  generalize machine.run s found.tokens = first,
    machine.run t (found.tokens.map (Token.down lines)) = second at hrun ⊢
  cases hrun with
  | error hrefused => exact .error (by rw [hrefused, ReadFailure.down_ofRefusal])
  | @ok s t hend =>
    have hresults := hresult hend
    simp only
    generalize machine.result? s = first, machine.result? t = second at hresults ⊢
    cases hresults with
    | some h => exact .ok h
    | none => cases found.fault <;> exact .error rfl

end Machine

/-! ### The graph of a document and of one behind it -/

namespace NTriples

variable {done : List Triple} {s t : State} {l : Lexeme}

/-- The reader stands as in a document by itself, while the graph had some triples before. -/
structure Behind (done : List Triple) (s t : State) : Prop where
  expecting : t.expecting = s.expecting
  triples : t.graph.triples = done ++ s.graph.triples.filter (· ∉ done)

namespace Behind

theorem expect (h : Behind done s t) (next : Expecting) :
    Behind done (s.expect next) (t.expect next) :=
  ⟨rfl, h.triples⟩

theorem blank (h : Behind done s t) (label : String) :
    Alike (· = ·) (fun read read' => read'.1 = read.1 ∧ Behind done read.2 read'.2)
      (s.blank label) (t.blank label) := by
  unfold State.blank Graph.reserve
  cases Term.ofBlankId (.text label) with
  | error fault => exact .error rfl
  | ok node =>
    refine .ok ⟨rfl, h.expecting, ?_⟩
    have hkept : ∀ g : Graph, (node.blankId?.elim g g.see).triples = g.triples := by
      cases node.blankId? <;> simp
    exact (hkept _).trans (h.triples.trans (by rw [hkept]))

/-- A triple that was there before is dropped, wherever it is read. -/
theorem add (h : Behind done s t) {added : Triple} (hadded : added.WellFormed) :
    (t.graph.add added).triples = done ++ (s.graph.add added).triples.filter (· ∉ done) := by
  have hin : added.isIn t.graph.triples = true ↔ added ∈ done ∨ added ∈ s.graph.triples := by
    rw [Triple.isIn_iff_mem hadded, h.triples]
    by_cases hdone : added ∈ done <;> simp [hdone]
  have hown := @Triple.isIn_iff_mem added s.graph.triples hadded
  rw [Graph.triples_add, Graph.triples_add, if_congr hin rfl rfl, if_congr hown rfl rfl, h.triples]
  by_cases hdone : added ∈ done <;> by_cases hs : added ∈ s.graph.triples <;> simp [hdone, hs]

theorem literal (h : Behind done s t) (subject predicate : Term) (value : String)
    (language : Option String) (datatype : Option Iri) :
    Alike (· = ·) (Behind done) (s.literal subject predicate value language datatype)
      (t.literal subject predicate value language datatype) := by
  unfold State.literal
  split
  · exact .error rfl
  · exact .ok (h.expect _)

theorem endLine (h : Behind done s t) (subject predicate object : Term) (l : Lexeme) :
    Alike (· = ·) (Behind done) (s.endLine subject predicate object l)
      (t.endLine subject predicate object l) := by
  unfold State.endLine
  split
  · cases hmake : Triple.make subject predicate object with
    | error fault => exact .error rfl
    | ok added =>
      obtain ⟨-, hadded⟩ := Triple.make_eq_ok_iff.1 hmake
      exact .ok ⟨rfl, h.add hadded⟩
  · exact .error rfl

theorem node (h : Behind done s t) (label : String) (next : Term → Expecting) :
    Alike (· = ·) (Behind done)
      (match s.blank label with
        | .error refusal => .error refusal
        | .ok (node, s) => .ok (s.expect (next node)))
      (match t.blank label with
        | .error refusal => .error refusal
        | .ok (node, t) => .ok (t.expect (next node))) := by
  have hblank := h.blank label
  generalize s.blank label = first, t.blank label = second at hblank ⊢
  cases hblank with
  | error hrefusal => exact .error hrefusal
  | ok hnode => exact .ok (hnode.1 ▸ hnode.2.expect _)

theorem step (h : Behind done s t) (l : Lexeme) :
    Alike (· = ·) (Behind done) (s.step l) (t.step l) := by
  have ht := h.expecting
  cases hs : s.expecting <;> rw [hs] at ht <;> simp only [State.step, hs, ht]
  case nothing => exact .ok h
  case subject =>
    cases l with
    | eof => exact .ok (h.expect .nothing)
    | blank label => exact h.node ..
    | _ =>
      simp only
      split
      · exact .error rfl
      · exact .ok (h.expect _)
  case predicate subject =>
    split
    · exact .error rfl
    · exact .ok (h.expect _)
  case object subject predicate =>
    cases l with
    | blank label => exact h.node ..
    | string delimiter value =>
      simp only
      split
      · exact .ok (h.expect _)
      · exact .error rfl
    | _ =>
      simp only
      split
      · exact .error rfl
      · exact .ok (h.expect _)
  case suffix subject predicate value =>
    cases l with
    | languageTag tag => exact h.literal ..
    | datatypeMark => exact .ok (h.expect _)
    | _ => exact h.endLine ..
  case datatype subject predicate value =>
    cases State.iri .datatype l with
    | error refusal => exact .error rfl
    | ok name => exact h.literal ..
  case dot subject predicate object => exact h.endLine ..

end Behind

/-! ### The end of a line -/

/-- Where the reader stands behind a lexeme. Only a dot leads to the beginning of a line, and only
the end of the document to the end of the reading. -/
inductive Follows (s : State) : Lexeme → State → Prop
  | dot (next : State) (h : next.expecting = .subject) : Follows s (.punct .dot) next
  | inside {l : Lexeme} (next : State)
      (h : next.expecting ≠ .subject ∧ next.expecting ≠ .nothing) : Follows s l next
  | eof (h : s.expecting = .subject) : Follows s .eof (s.expect .nothing)
  | ended {l : Lexeme} (h : s.expecting = .nothing) : Follows s l s

theorem Follows.of_ok {s1 s2 : State} {next : Expecting}
    (h : (.ok (s2.expect next) : Except Refusal State) = .ok s1)
    (hnext : next ≠ .subject ∧ next ≠ .nothing) : Follows s l s1 :=
  Except.ok.inj h ▸ .inside _ hnext

theorem follows_of_literal {s1 : State} {subject predicate : Term} {value : String}
    {language : Option String} {datatype : Option Iri}
    (h : s.literal subject predicate value language datatype = .ok s1) : Follows s l s1 := by
  simp only [State.literal] at h
  split at h
  · cases h
  · exact .of_ok h (by simp)

theorem follows_of_endLine {s1 : State} {subject predicate object : Term}
    (h : s.endLine subject predicate object l = .ok s1) : Follows s l s1 := by
  simp only [State.endLine] at h
  split at h
  · next hl =>
    split at h
    · cases h
    · exact Except.ok.inj h ▸ hl ▸ .dot _ rfl
  · cases h

theorem follows_of_step {s1 : State} (h : s.step l = .ok s1) : Follows s l s1 := by
  cases he : s.expecting <;> simp only [State.step, he] at h
  case nothing => exact Except.ok.inj h ▸ .ended he
  case subject =>
    cases l with
    | eof => exact Except.ok.inj h ▸ .eof he
    | _ =>
      simp only at h
      split at h
      · cases h
      · exact .of_ok h (by simp)
  case predicate subject =>
    split at h
    · cases h
    · exact .of_ok h (by simp)
  case object subject predicate =>
    cases l with
    | string delimiter value =>
      simp only at h
      split at h
      · exact .of_ok h (by simp)
      · cases h
    | _ =>
      simp only at h
      split at h
      · cases h
      · exact .of_ok h (by simp)
  case suffix subject predicate value =>
    cases l with
    | languageTag tag => exact follows_of_literal h
    | datatypeMark => exact .of_ok h (by simp)
    | _ => exact follows_of_endLine h
  case datatype subject predicate value =>
    split at h
    · cases h
    · exact follows_of_literal h
  case dot subject predicate object => exact follows_of_endLine h

theorem live_of_run {s1 : State} {lexemes : List Lexeme}
    (h : machine.runLexemes s lexemes = .ok s1) (heof : .eof ∉ lexemes)
    (hs : s.expecting ≠ .nothing) : s1.expecting ≠ .nothing := by
  induction lexemes generalizing s with
  | nil => exact Except.ok.inj h ▸ hs
  | cons l lexemes ih =>
    obtain ⟨hl, heof⟩ := not_or.1 (mt List.mem_cons.2 heof)
    obtain ⟨next, hstep, hrest⟩ := machine.step_of_runLexemes h
    refine ih hrest heof ?_
    cases follows_of_step hstep with
    | dot _ hnext => simp [hnext]
    | inside _ hnext => exact hnext.2
    | eof => exact absurd rfl hl
    | ended he => exact absurd he hs

/-! ### Joined documents -/

variable {first : String} {source : SourceName} {g : Graph}

/-- No string ends where a line begins. -/
theorem endsInString_of_run {tokens : List Token} {s1 : State}
    (h : machine.run s tokens = .ok s1) (hs1 : s1.expecting = .subject) :
    Token.endsInString false tokens = false := by
  obtain rfl | ⟨before, last, rfl⟩ := List.eq_nil_or_concat tokens
  · rfl
  rw [List.concat_eq_append] at h ⊢
  obtain ⟨s, hstep⟩ := machine.step_of_run_concat h
  have hends : Token.endsInString false (before ++ [last]) = last.lexeme.isString := by
    simp [Token.endsInString]
  rw [hends]
  generalize last.lexeme = l at hstep
  cases follows_of_step hstep with
  | dot => rfl
  | inside _ hinside => exact absurd hs1 hinside.1
  | eof => rfl
  | ended he => rw [he] at hs1; cases hs1

/-- A document that is read leads to the beginning of a line, behind which the tokens of the other
document stand. -/
theorem exists_tokens_of_read (h : read first source = .ok g) (second : List Char) :
    ∃ tokens middle, machine.run {} tokens = .ok middle ∧ middle.expecting = .subject ∧
      middle.graph.triples = g.triples ∧
      let later := (Token.scanFrom .start false second).down (1 + first.toList.count '\n')
      Token.scanFrom .start false (first.toList ++ '\n' :: second) =
        ⟨tokens ++ later.tokens, later.fault⟩ := by
  obtain ⟨last, hrun, hlast⟩ := machine.read_eq_ok_iff.1 h
  obtain ⟨hend, rfl⟩ : last.expecting = .nothing ∧ last.graph = g := by
    simpa [machine, State.graph?] using hlast
  -- Before a fault there is no end of the text, without which the reader does not end.
  have hfault : (Token.scanAll first).fault = none := by
    refine Classical.byContradiction fun hfault => ?_
    exact live_of_run hrun (Token.eof_not_mem_of_fault hfault) (by simp) hend
  obtain ⟨tokens, hlexemes, hscan⟩ := (Lexes.of_scanFrom hfault).scanFrom_feed .start second
  have heof : .eof ∉ tokens.map (·.lexeme) := Token.eof_not_mem_scanFrom _ _ _ hlexemes.symm
  have hrun' : machine.runLexemes {} (tokens.map (·.lexeme) ++ [.eof]) = .ok last := hlexemes ▸ hrun
  obtain ⟨middle, hbefore, hrest⟩ := machine.between_of_runLexemes hrun'
  obtain ⟨next, hstep, hnil⟩ := machine.step_of_runLexemes hrest
  obtain rfl := Except.ok.inj hnil
  have hmiddle : middle.expecting = .subject ∧ middle.graph = next.graph := by
    cases follows_of_step hstep with
    | inside _ hinside => exact absurd hend hinside.2
    | eof he => exact ⟨he, rfl⟩
    | ended he => exact absurd he (live_of_run hbefore heof (by simp))
  have hbefore' := machine.run_eq_ok_iff.2 hbefore
  refine ⟨tokens, middle, hbefore', hmiddle.1, congrArg _ hmiddle.2, ?_⟩
  rw [hscan, endsInString_of_run hbefore' hmiddle.1, Place.after_feed, Token.scanFrom_down]

/-- Behind a document that is read, a document is read as by itself. -/
theorem read_alike (h : read first source = .ok g) (second : String) :
    Alike (fun failure failure' => failure' = failure.down (1 + first.toList.count '\n'))
      (fun g' joined => joined.triples = g.triples ++ g'.triples.filter (· ∉ g.triples))
      (read second source) (read (first ++ "\n" ++ second) source) := by
  obtain ⟨tokens, middle, hrun, hexpecting, htriples, hscan⟩ :=
    exists_tokens_of_read h second.toList
  have hjoined : read (first ++ "\n" ++ second) source = machine.read source middle
      ((Token.scanAll second).down (1 + first.toList.count '\n')) := by
    have htext : (first ++ "\n" ++ second).toList = first.toList ++ '\n' :: second.toList := by
      simp
    rw [read, readTokens, Token.scanAll, htext, hscan]
    simp only [Machine.read, machine.run_append, hrun, Except.bind]
    rfl
  have hbehind : Behind g.triples {} middle := ⟨hexpecting, by simp [htriples]⟩
  rw [hjoined]
  refine machine.read_alike (fun l => (Behind.step · l)) (fun {s t} hst => ?_) _ hbehind source _
  simp only [machine, State.graph?, hst.expecting]
  split
  · exact .some hst.triples
  · exact .none

/-- Two documents that are joined by a line feed are read as one behind the other. The triples of
the second that are not there already come behind those of the first. An error of the second stays
the error that it is, with its place as many lines further down as the first one has. -/
theorem read_join (h : read first source = .ok g) (second : String) :
    (∀ g', read second source = .ok g' →
      ∃ joined, read (first ++ "\n" ++ second) source = .ok joined ∧
        joined.triples = g.triples ++ g'.triples.filter (· ∉ g.triples)) ∧
    ∀ failure, read second source = .error failure →
      ∃ error, failure = .document error ∧
        read (first ++ "\n" ++ second) source = .error (.document
          ⟨source, ⟨error.place.line + 1 + first.toList.count '\n', error.place.column⟩,
            error.fault.down (1 + first.toList.count '\n')⟩) ∧
        (error.fault.down (1 + first.toList.count '\n')).message = error.fault.message := by
  have halike := read_alike h second
  generalize read (first ++ "\n" ++ second) source = joined at halike
  constructor
  · intro g' hread
    rw [hread] at halike
    cases halike with
    | ok htriples => exact ⟨_, rfl, htriples⟩
  · intro failure hread
    have hanswers := answers_read second source
    rw [hread] at halike hanswers
    have hstems : failure.StemsFrom (fun _ => Refusal.IsGrammar) source (Token.scanAll second) :=
      hanswers
    obtain ⟨error, rfl, hlocated, -⟩ := hstems.located fun hgrammar => hgrammar.liesIn _
    refine ⟨error, rfl, ?_, ReadFault.message_down ..⟩
    cases halike with
    | error hdown =>
      rw [hdown, ← hlocated.source, Int.add_assoc]
      rfl

/-- A comment at the end of the first document ends with its line, and a triple that comes again is
dropped. -/
theorem read_join_comment :
    let first := "_:b <urn:p> \"x\"@en .\n_:b <urn:p> <urn:o> . # the end"
    let second := "_:b <urn:p> <urn:o> . _:b <urn:p> \"x\" ."
    let broken := "_:b <urn:p> _:b .\n_:b <p> _:b ."
    let tagged : Triple := ⟨.blank "b", .iri ⟨"urn:p"⟩, .literal ⟨"x", some "en", none⟩⟩
    let linked : Triple := ⟨.blank "b", .iri ⟨"urn:p"⟩, .iri ⟨"urn:o"⟩⟩
    let plain : Triple := ⟨.blank "b", .iri ⟨"urn:p"⟩, .literal ⟨"x", none, none⟩⟩
    (∃ joined, read (first ++ "\n" ++ second) (.text "lines") = .ok joined ∧
      joined.triples = [tagged, linked, plain]) ∧
    ∃ fault, read (first ++ "\n" ++ broken) (.text "lines") =
        .error (.document ⟨.text "lines", ⟨4, 5⟩, fault⟩) ∧
      fault.message = "N-Triples requires absolute IRIs, found <p>" := by
  intro first second broken tagged linked plain
  have hfirst : (read first (.text "lines")).toOption.map (·.triples) = some [tagged, linked] := by
    decide +kernel
  have hsecond : (read second (.text "lines")).toOption.map (·.triples) = some [linked, plain] := by
    decide +kernel
  have hbroken : (match read broken (.text "lines") with
      | .error (.document error) => some (error.place, error.fault.message)
      | _ => none) = some (⟨2, 5⟩, "N-Triples requires absolute IRIs, found <p>") := by
    decide +kernel
  cases hg : read first (.text "lines") with
  | error failure => simp [hg, Except.toOption] at hfirst
  | ok g =>
    have hdone : g.triples = [tagged, linked] := by simpa [hg, Except.toOption] using hfirst
    constructor
    · cases hg' : read second (.text "lines") with
      | error failure => simp [hg', Except.toOption] at hsecond
      | ok g' =>
        have hnew : g'.triples = [linked, plain] := by simpa [hg', Except.toOption] using hsecond
        obtain ⟨joined, hjoined, htriples⟩ := (read_join hg second).1 g' hg'
        refine ⟨joined, hjoined, ?_⟩
        rw [htriples, hdone, hnew]
        decide
    · cases hfailure : read broken (.text "lines") with
      | ok g' => simp [hfailure] at hbroken
      | error failure =>
        obtain ⟨error, rfl, hjoined, hmessage⟩ := (read_join hg broken).2 failure hfailure
        obtain ⟨hplace, htext⟩ : error.place = ⟨2, 5⟩ ∧ _ := by simpa [hfailure] using hbroken
        have hlines : Place.mk (error.place.line + 1 + first.toList.count '\n')
            error.place.column = ⟨4, 5⟩ := by
          rw [hplace]
          decide
        exact ⟨_, hlines ▸ hjoined, hmessage.trans htext⟩

end NTriples

end Rdf

import Rdf.Command.Run
import Rdf.Proofs.Command.Host
import Rdf.Proofs.Document.Spelling

/-!
What a conversion does to a host.

`Steps.Ensures` says what steps lead to, from what has been printed and a state of the host. A
conversion that fails has left everything as it was, and one that does not fail has handed over the
document to the output and to nothing else.
-/

namespace Rdf.Command

variable {σ κ α β : Type}

/-! ### Steps -/

namespace Steps

/-- From what has been printed and a state, steps end as the condition says. -/
def Ensures (steps : Steps (StateM σ) α) (p : Printed) (s : σ)
    (post : Except Failure α → Printed → σ → Prop) : Prop :=
  let ((result, printed), after) := (steps.run.run p).run s
  post result printed after

variable {p : Printed} {s : σ} {post post' : Except Failure α → Printed → σ → Prop}

theorem Ensures.mono {steps : Steps (StateM σ) α} (h : steps.Ensures p s post)
    (himp : ∀ r p s, post r p s → post' r p s) : steps.Ensures p s post' := himp _ _ _ h

/-- Later steps begin where earlier ones end, unless these fail. -/
theorem ensures_bind {steps : Steps (StateM σ) β} {next : β → Steps (StateM σ) α} :
    (steps >>= next).Ensures p s post ↔ steps.Ensures p s fun r p s =>
      match r with
      | .ok value => (next value).Ensures p s post
      | .error failure => post (.error failure) p s := by
  rw [Ensures, Ensures, ExceptT.run_bind, StateT.run_bind, StateT.run_bind]
  obtain ⟨⟨_ | value, printed⟩, after⟩ := (steps.run.run p).run s <;> exact Iff.rfl

theorem ensures_pure {value : α} :
    (pure value : Steps (StateM σ) α).Ensures p s post ↔ post (.ok value) p s := Iff.rfl

theorem ensures_throw {failure : Failure} :
    (throw failure : Steps (StateM σ) α).Ensures p s post ↔ post (.error failure) p s := Iff.rfl

theorem ensures_lift {result : Except Failure α} :
    (liftM result : Steps (StateM σ) α).Ensures p s post ↔ post result p s := by
  cases result <;> exact Iff.rfl

theorem ensures_note {text : String} {post : Except Failure Unit → Printed → σ → Prop} :
    (note text : Steps (StateM σ) Unit).Ensures p s post ↔
      post (.ok ()) { p with messages := p.messages ++ text } s := Iff.rfl

variable {next : β → Steps (StateM σ) α}

theorem ensures_bind_ask {step : StateM σ β} :
    (ask step >>= next).Ensures p s post ↔
      (next (step.run s).1).Ensures p (step.run s).2 post := ensures_bind

theorem ensures_bind_lift {result : Except Failure β}
    (herror : ∀ failure, result = .error failure → post (.error failure) p s)
    (hok : ∀ value, result = .ok value → (next value).Ensures p s post) :
    (liftM result >>= next).Ensures p s post := by
  rw [ensures_bind, ensures_lift]
  cases result with
  | ok value => exact hok value rfl
  | error failure => exact herror failure rfl

/-- What is logged goes to the messages. -/
theorem ensures_bind_log {arguments : Arguments} {level text : String}
    {next : Unit → Steps (StateM σ) α}
    (h : ∀ messages, (next ()).Ensures { p with messages } s post) :
    (log arguments level text >>= next).Ensures p s post := by
  rw [ensures_bind, log]
  split
  · exact h _
  · exact h _

end Steps

/-! ### What a conversion is to do -/

theorem Format.ofName?_name (format : Format) : Format.ofName? format.name = some format := by
  cases format <;> rfl

theorem load_name (format : Format) (text : String) (source : SourceName) (base : Option Plain) :
    load text format.name source base = (format.read text source base).mapError .read := by
  rw [load, Format.ofName?_name]

theorem dump_name (format : Format) (g : Graph) (options : Turtle.Options) :
    dump g format.name options = (format.write g options).mapError .write := by
  rw [dump, Format.ofName?_name]

theorem toOption_eq_some {ε : Type} {result : Except ε α} {value : α} :
    result.toOption = some value ↔ result = .ok value := by
  cases result <;> simp [Except.toOption]

theorem mapError_eq_error {ε ε' : Type} {f : ε → ε'} {result : Except ε α} {fault : ε'}
    (h : result.mapError f = .error fault) : ∃ found, result = .error found ∧ f found = fault := by
  cases result with
  | ok value => cases h
  | error found => exact ⟨found, rfl, Except.error.inj h⟩

theorem mapError_eq_ok {ε ε' : Type} {f : ε → ε'} {result : Except ε α} {value : α} :
    result.mapError f = .ok value ↔ result = .ok value := by
  cases result <;> simp [Except.mapError]

/-- The bytes of an input, which is a file or standard input. -/
def View.content? (v : View κ) (input : String) : Option (List UInt8) :=
  if input = standardPath then some v.input else v.fileAt (Path.ofText input)

namespace Arguments

variable (arguments : Arguments) (v : View κ)

def text? : Option String :=
  (v.content? arguments.input).bind fun bytes => (textOf bytes).toOption

/-- The graph of the input. -/
def graph? : Option Graph := do
  let job ← arguments.job.toOption
  let text ← arguments.text? v
  (load text job.source.name (.text arguments.sourceName)
    (arguments.baseFor v.directory)).toOption

/-- The document of that graph that is to go to the output. -/
def document? : Option String := do
  let job ← arguments.job.toOption
  let target ← job.target
  let g ← arguments.graph? v
  (dump g target.name job.options).toOption

variable {arguments : Arguments} {v : View κ} {g : Graph} {text : String}

theorem text?_of_content? {bytes : List UInt8} (h : v.content? arguments.input = some bytes) :
    arguments.text? v = (textOf bytes).toOption := by
  rw [text?, h, Option.bind_some]

theorem graph?_eq_some_iff : arguments.graph? v = some g ↔ ∃ job text, arguments.job = .ok job ∧
    arguments.text? v = some text ∧ job.source.read text (.text arguments.sourceName)
      (arguments.baseFor v.directory) = .ok g := by
  simp only [graph?, Option.bind_eq_bind, Option.bind_eq_some_iff, toOption_eq_some, load_name,
    mapError_eq_ok, exists_and_left]

theorem document?_eq_some_iff : arguments.document? v = some text ↔
    ∃ job target g, arguments.job = .ok job ∧ job.target = some target ∧
      arguments.graph? v = some g ∧ target.write g job.options = .ok text := by
  simp only [document?, Option.bind_eq_bind, Option.bind_eq_some_iff, toOption_eq_some, dump_name,
    mapError_eq_ok, exists_and_left]

/-- A job that is not only to validate has an output and a format for it. -/
theorem exists_of_job {job : Job} (h : arguments.job = .ok job)
    (hvalidate : arguments.validateOnly = false) :
    (∃ output, arguments.output = some output) ∧ ∃ target, job.target = some target := by
  simp only [Arguments.job, hvalidate] at h
  obtain ⟨source, -, h⟩ := bind_eq_ok.1 h
  cases source with
  | none => cases h
  | some source =>
    obtain ⟨target, -, h⟩ := bind_eq_ok.1 h
    cases houtput : arguments.output with
    | none =>
      rw [houtput] at h
      cases h
    | some output =>
      rw [houtput] at h
      cases target with
      | none => cases h
      | some target =>
        cases h
        exact ⟨⟨output, rfl⟩, target, rfl⟩

end Arguments

section

variable [DecidableEq κ]

/-- A text comes to an output and nothing else changes: it is printed, or it is in the file. -/
def Arrives (output text : String) (before after : View κ) (printed : String) : Prop :=
  if output = standardPath then after = before ∧ printed = text
  else printed = "" ∧ ∃ place, before.place? (Path.ofText output) = some place ∧
    after = before.withFile place text.toUTF8.toList

/-- A text that comes to a file is in the file at the place that the output leads to. -/
theorem Arrives.eq_withFile {output text printed : String} {before after : View κ} {place : κ}
    (h : Arrives output text before after printed) (hne : output ≠ standardPath)
    (hplace : before.place? (Path.ofText output) = some place) :
    printed = "" ∧ after = before.withFile place text.toUTF8.toList := by
  rw [Arrives, if_neg hne] at h
  obtain ⟨hprinted, found, hfound, hafter⟩ := h
  obtain rfl := Option.some.inj (hplace.symm.trans hfound)
  exact ⟨hprinted, hafter⟩

/-- The reasons for a conversion to fail. -/
inductive Fails (host : Host σ κ) (arguments : Arguments) (v : View κ) : Failure → Prop
  | request {fault : RequestFault} (h : arguments.job = .error fault) :
    Fails host arguments v (.request fault)
  | unread (fault : FileFault) (hinput : arguments.input ≠ standardPath)
    (h : ∀ bytes, ¬host.Gives v (Path.ofText arguments.input) bytes) :
    Fails host arguments v (.file fault)
  | bytes {bytes : List UInt8} {failure : Failure}
    (hbytes : v.content? arguments.input = some bytes) (h : textOf bytes = .error failure) :
    Fails host arguments v failure
  | read {job : Job} {text : String} {failure : ReadFailure} (hjob : arguments.job = .ok job)
    (htext : arguments.text? v = some text)
    (h : job.source.read text (.text arguments.sourceName) (arguments.baseFor v.directory) =
      .error failure) :
    Fails host arguments v (.read failure)
  | write {job : Job} {target : Format} {g : Graph} {fault : WriteFault}
    (hjob : arguments.job = .ok job) (htarget : job.target = some target)
    (hg : arguments.graph? v = some g) (h : target.write g job.options = .error fault) :
    Fails host arguments v (.write fault)
  | unwritten {output text : String} (fault : FileFault) (houtput : arguments.output = some output)
    (hne : output ≠ standardPath) (htext : arguments.document? v = some text)
    (h : ¬host.Takes v (Path.ofText output) text) : Fails host arguments v (.file fault)

/-- Where its input can be read, the document for it can be written and its output takes the
document, a conversion has no reason to fail. -/
theorem not_fails {host : Host σ κ} {arguments : Arguments} {v : View κ} {document : String}
    (hgives : arguments.input ≠ standardPath →
      ∃ bytes, host.Gives v (Path.ofText arguments.input) bytes)
    (hdocument : arguments.document? v = some document)
    (htakes : ∀ output, arguments.output = some output → output ≠ standardPath →
      host.Takes v (Path.ofText output) document)
    (failure : Failure) : ¬Fails host arguments v failure := by
  obtain ⟨job, target, g, hjob, htarget, hgraph, hwrite⟩ :=
    Arguments.document?_eq_some_iff.1 hdocument
  obtain ⟨_, text, hjob', htext, hread⟩ := Arguments.graph?_eq_some_iff.1 hgraph
  obtain rfl := Except.ok.inj (hjob.symm.trans hjob')
  intro h
  cases h with
  | request h => nomatch hjob.symm.trans h
  | unread fault hinput h =>
    obtain ⟨bytes, hbytes⟩ := hgives hinput
    exact h bytes hbytes
  | bytes hbytes h =>
    rw [Arguments.text?_of_content? hbytes, h] at htext
    cases htext
  | read hjob' htext' h =>
    obtain rfl := Except.ok.inj (hjob.symm.trans hjob')
    obtain rfl := Option.some.inj (htext.symm.trans htext')
    nomatch hread.symm.trans h
  | write hjob' htarget' hg h =>
    obtain rfl := Except.ok.inj (hjob.symm.trans hjob')
    obtain rfl := Option.some.inj (htarget.symm.trans htarget')
    obtain rfl := Option.some.inj (hgraph.symm.trans hg)
    nomatch hwrite.symm.trans h
  | unwritten fault houtput hne hdocument' h =>
    obtain rfl := Option.some.inj (hdocument.symm.trans hdocument')
    exact h (htakes _ houtput hne)

/-- How a conversion ends. -/
def Ends (host : Host σ κ) (arguments : Arguments) (before after : View κ) (printed : String) :
    Except Failure Unit → Prop
  | .error failure => after = before ∧ printed = "" ∧ Fails host arguments before failure
  | .ok () => (∃ g, arguments.graph? before = some g) ∧
    if arguments.validateOnly then after = before ∧ printed = ""
    else ∃ output text, arguments.output = some output ∧ arguments.document? before = some text ∧
      Arrives output text before after printed

/-! ### Parts of a conversion -/

open Steps

variable (host : Host σ κ) (arguments : Arguments) (p : Printed) (s : σ)

theorem readInput_ensures :
    (readInput host.system arguments).Ensures p s fun r p' s' =>
      p' = p ∧ host.view s' = host.view s ∧ match r with
      | .ok text => arguments.text? (host.view s) = some text
      | .error failure => Fails host arguments (host.view s) failure := by
  unfold readInput
  split
  · next hinput =>
    have hcontent : (host.view s).content? arguments.input = some (host.view s).input :=
      if_pos hinput
    refine ensures_bind_ask.2 (ensures_lift.2 ⟨rfl, host.view_input s, ?_⟩)
    rw [host.input_eq]
    cases htext : textOf (host.view s).input with
    | ok text => rw [Arguments.text?_of_content? hcontent, htext, Except.toOption]
    | error failure => exact .bytes hcontent htext
  · next hinput =>
    refine ensures_bind_ask.2 ?_
    have hview := host.view_readFile (Path.ofText arguments.input) s
    cases hread : ((host.system.readFile (Path.ofText arguments.input)).run s).1 with
    | ok bytes =>
      have hcontent : (host.view s).content? arguments.input = some bytes :=
        (if_neg hinput).trans (host.fileAt_of_readFile hread)
      refine ensures_lift.2 ⟨rfl, hview, ?_⟩
      cases htext : textOf bytes with
      | ok text => rw [Arguments.text?_of_content? hcontent, htext, Except.toOption]
      | error failure => exact .bytes hcontent htext
    | error fault =>
      refine ensures_throw.2 ⟨rfl, hview, .unread fault hinput fun bytes hgives => ?_⟩
      rw [hgives s rfl] at hread
      cases hread

theorem writeOutput_ensures {output text : String} (hp : p.output = "") :
    (writeOutput host.system output text).Ensures p s fun r p' s' =>
      match r with
      | .ok () => Arrives output text (host.view s) (host.view s') p'.output
      | .error failure => host.view s' = host.view s ∧ p'.output = "" ∧ output ≠ standardPath ∧
        ¬host.Takes (host.view s) (Path.ofText output) text ∧ ∃ fault, failure = .file fault := by
  unfold writeOutput
  split
  · next houtput =>
    have hprinted : p.output ++ text = text := by rw [hp, String.empty_append]
    exact (if_pos houtput).mpr ⟨rfl, hprinted⟩
  · next houtput =>
    refine ensures_bind_ask.2 ?_
    cases hwrite : ((host.system.writeFile (Path.ofText output) text).run s).1 with
    | ok => exact (if_neg houtput).mpr ⟨hp, host.view_writeFile hwrite⟩
    | error fault =>
      refine ensures_throw.2 ⟨host.view_writeFile_of_error hwrite, hp, houtput, fun htakes => ?_,
        fault, rfl⟩
      rw [htakes s rfl] at hwrite
      cases hwrite

theorem convert_ensures :
    (convert host.system arguments).Ensures {} s fun r p s' =>
      Ends host arguments (host.view s) (host.view s') p.output r := by
  have hfinish : ∀ {g : Graph} {p : Printed} {s' : σ},
      Ends host arguments (host.view s) (host.view s') p.output (.ok ()) →
      Ensures (if arguments.statistics then note (report (Statistics.ofGraph g)) else pure ()) p s'
        fun r p s' => Ends host arguments (host.view s) (host.view s') p.output r := by
    intro g p s' h
    split
    · exact ensures_note.2 h
    · exact ensures_pure.2 h
  unfold convert
  refine ensures_bind_lift (fun failure hfailure => ?_) fun job hjob => ?_
  · obtain ⟨fault, hfault, rfl⟩ := mapError_eq_error hfailure
    exact ⟨rfl, rfl, .request hfault⟩
  replace hjob := mapError_eq_ok.1 hjob
  refine ensures_bind_ask.2 ?_
  rw [host.directory_eq]
  have hdirectory := host.view_directory s
  -- Up to the output, the states that the steps go through all have the view of the first one.
  generalize (host.system.directory.run s).2 = s1 at hdirectory
  refine ensures_bind.2 ((readInput_ensures host arguments {} s1).mono ?_)
  rintro r p s2 ⟨rfl, hs2, hr⟩
  rw [hdirectory] at hs2 hr
  obtain failure | text := r
  · exact ⟨hs2, rfl, hr⟩
  refine ensures_bind_log fun messages =>
    ensures_bind_lift (fun failure hfailure => ?_) fun g hg => ensures_bind_log fun messages => ?_
  · obtain ⟨fault, hfault, rfl⟩ := mapError_eq_error hfailure
    exact ⟨hs2, rfl, .read hjob hr hfault⟩
  have hgraph : arguments.graph? (host.view s) = some g :=
    Arguments.graph?_eq_some_iff.2 ⟨job, text, hjob, hr, mapError_eq_ok.1 hg⟩
  cases hvalidate : arguments.validateOnly with
  | true =>
    refine hfinish ⟨⟨g, hgraph⟩, ?_⟩
    rw [hvalidate]
    exact ⟨hs2, rfl⟩
  | false =>
    obtain ⟨⟨output, houtput⟩, target, htarget⟩ := Arguments.exists_of_job hjob hvalidate
    simp only [houtput, htarget]
    refine ensures_bind_lift (fun failure hfailure => ?_) fun written hwritten => ?_
    · obtain ⟨fault, hfault, rfl⟩ := mapError_eq_error hfailure
      exact ⟨hs2, rfl, .write hjob htarget hgraph hfault⟩
    have hdocument : arguments.document? (host.view s) = some written :=
      Arguments.document?_eq_some_iff.2
        ⟨job, target, g, hjob, htarget, hgraph, mapError_eq_ok.1 hwritten⟩
    refine ensures_bind.2 ((writeOutput_ensures host _ s2 rfl).mono ?_)
    intro r p s3 hr
    rw [hs2] at hr
    cases r with
    | ok =>
      refine ensures_bind_log fun messages => hfinish ⟨⟨g, hgraph⟩, ?_⟩
      rw [hvalidate]
      exact ⟨output, written, houtput, hdocument, hr⟩
    | error failure =>
      obtain ⟨hs3, hprinted, hne, htakes, fault, rfl⟩ := hr
      exact ⟨hs3, hprinted, .unwritten fault houtput hne hdocument htakes⟩

/-! ### Conversions -/

theorem run_of_read {written : List String} {arguments : Arguments}
    (hread : Arguments.read written = .ok arguments) :
    run host.system written = runArguments host.system arguments := by
  rw [run, hread]

/-- A run ends as its conversion does, which its status tells. -/
theorem runArguments_ends :
    let outcome := (runArguments host.system arguments).run s
    (outcome.1.status = 0 ∧ Ends host arguments (host.view s) (host.view outcome.2)
      outcome.1.printed.output (.ok ())) ∨
    (outcome.1.status = 1 ∧ ∃ failure, Ends host arguments (host.view s) (host.view outcome.2)
      outcome.1.printed.output (.error failure)) := by
  have hends := convert_ensures host arguments s
  rw [Ensures] at hends
  simp only [runArguments, StateT.run_bind]
  revert hends
  obtain ⟨⟨_ | value, printed⟩, after⟩ := ((convert host.system arguments).run.run {}).run s
  · exact fun hends => .inr ⟨rfl, _, hends⟩
  · exact fun hends => .inl ⟨rfl, hends⟩

variable {arguments s} in
theorem arrives_of_status (hvalidate : arguments.validateOnly = false)
    (hstatus : ((runArguments host.system arguments).run s).1.status = 0) :
    ∃ output text, arguments.output = some output ∧ arguments.document? (host.view s) = some text ∧
      Arrives output text (host.view s) (host.view ((runArguments host.system arguments).run s).2)
        ((runArguments host.system arguments).run s).1.printed.output := by
  obtain ⟨-, -, hends⟩ | ⟨hone, -⟩ := runArguments_ends host arguments s
  · rwa [hvalidate] at hends
  · nomatch hone.symm.trans hstatus

variable {arguments s} in
/-- A run does not fail where its input can be read, the document for it can be written and its
output takes the document. -/
theorem status_of_document? {document : String}
    (hgives : arguments.input ≠ standardPath →
      ∃ bytes, host.Gives (host.view s) (Path.ofText arguments.input) bytes)
    (hdocument : arguments.document? (host.view s) = some document)
    (htakes : ∀ output, arguments.output = some output → output ≠ standardPath →
      host.Takes (host.view s) (Path.ofText output) document) :
    ((runArguments host.system arguments).run s).1.status = 0 := by
  obtain ⟨hzero, -⟩ | ⟨-, failure, -, -, hfails⟩ := runArguments_ends host arguments s
  · exact hzero
  · exact absurd hfails (not_fails hgives hdocument htakes failure)

/-- A conversion has no effect but its output. If it fails or only validates, nothing has changed
and nothing has been printed; else the output has the document of the graph of the input as it was
before, which may have been in the same file, and nothing else has changed. -/
theorem runArguments_effects (host : Host σ κ) (arguments : Arguments) (s : σ) :
    let outcome := (runArguments host.system arguments).run s
    (outcome.1.status = 0 ∨ outcome.1.status = 1) ∧
      (outcome.1.status = 1 ∨ arguments.validateOnly = true →
        host.view outcome.2 = host.view s ∧ outcome.1.printed.output = "") ∧
      (outcome.1.status = 0 → arguments.validateOnly = false →
        ∃ output text, arguments.output = some output ∧
          arguments.document? (host.view s) = some text ∧
          Arrives output text (host.view s) (host.view outcome.2) outcome.1.printed.output) := by
  intro outcome
  obtain ⟨hstatus, -, hends⟩ | ⟨hstatus, failure, hview, hprinted, -⟩ :=
    runArguments_ends host arguments s
  · refine ⟨.inl hstatus, fun hquiet => ?_, fun hzero hvalidate => ?_⟩
    · have hvalidate : arguments.validateOnly = true :=
        hquiet.resolve_left fun hone => nomatch hstatus.symm.trans hone
      rwa [if_pos hvalidate] at hends
    · exact arrives_of_status host hvalidate hzero
  · exact ⟨.inr hstatus, fun _ => ⟨hview, hprinted⟩, fun hzero => nomatch hstatus.symm.trans hzero⟩

end

/-- A file that is converted in place has the document of what it had, and another one is as it
was. -/
theorem runArguments_effects_inPlace :
    let text : List UInt8 := [0x3C, 0x70, 0x3A, 0x3E, 0x3C, 0x70, 0x3A, 0x3E, 0x31, 0x2E]
    let tree : FileTree := .ofEntries ["w"] [] [(["w", "d.ttl"], text), (["w", "e.ttl"], text)] []
    let arguments : Arguments := { input := "d.ttl", output := some "d.ttl", target := some "nt" }
    let outcome := (runArguments FileTree.host.system arguments).run tree
    outcome.1.status = 0 ∧ outcome.1.printed.output = "" ∧ ∃ document,
      arguments.document? tree.view = some document ∧
      outcome.2.view.files ["w", "d.ttl"] = some document.toUTF8.toList ∧
      outcome.2.view.files ["w", "e.ttl"] = some text := by
  intro text tree arguments
  have hstatus : ((runArguments FileTree.host.system arguments).run tree).1.status = 0 := by
    decide +kernel
  have hplace : tree.view.place? (Path.ofText "d.ttl") = some ["w", "d.ttl"] := by decide +kernel
  have hother : tree.view.files ["w", "e.ttl"] = some text := by decide +kernel
  have heffects := runArguments_effects FileTree.host arguments tree
  generalize (runArguments FileTree.host.system arguments).run tree = outcome at hstatus heffects ⊢
  obtain ⟨output, document, houtput, hdocument, harrives⟩ := heffects.2.2 hstatus rfl
  obtain rfl := Option.some.inj houtput
  obtain ⟨hprinted, hafter⟩ := harrives.eq_withFile (by decide) hplace
  have hview : outcome.2.view = _ := hafter
  refine ⟨hstatus, hprinted, document, hdocument, ?_, ?_⟩
  · rw [hview]
    exact View.files_withFile
  · rw [hview, View.files_withFile_of_ne (by decide)]
    exact hother

end Rdf.Command

import Rdf.Proofs.Command.Conversion
import Rdf.Proofs.Document.Recovery

/-!
Outputs that are read again.

The document that a conversion hands over has been written for the graph of the input. It is read
again, without a base, unless the user has asked for a base that is not absolute or the graph has
lists that are nested too deep.
-/

namespace Rdf.Command

variable {σ κ : Type}

namespace Arguments

variable {arguments : Arguments} {v : View κ} {g : Graph}

/-- The base of a graph is absolute unless the user has asked for one that is not. -/
theorem isAbsolute_base (hg : arguments.graph? v = some g)
    (hbase : ∀ value, arguments.base = some (.text value) → hasScheme value.toList = true)
    {iri : Iri} (hiri : iri ∈ g.base) : iri.isAbsolute = true := by
  obtain ⟨job, text, -, -, hread⟩ := graph?_eq_some_iff.1 hg
  obtain habsolute | hinForce := Format.base_of_read hread hiri
  · exact habsolute
  · simp only [baseFor] at hinForce
    split at hinForce
    · next hasked => exact hbase _ (hasked.trans hinForce)
    · split at hinForce
      · cases hinForce
      · have hvalue := Plain.text.inj (Option.some.inj hinForce)
        rw [Iri.isAbsolute, ← hvalue, Path.toIri, String.toList_append]
        exact hasScheme_append (by decide) _

end Arguments

/-- What a run has written is read again in its format, without a base, as the graph of the input
up to the names of blank nodes. The exceptions are documents of Turtle whose base is not absolute,
which takes a user who has asked for it, or whose lists are nested too deep. -/
theorem run_recovered [DecidableEq κ] (host : Host σ κ) (s : σ) {written : List String}
    {arguments : Arguments} (hread : Arguments.read written = .ok arguments)
    (hvalidate : arguments.validateOnly = false) :
    let outcome := (run host.system written).run s
    outcome.1.status = 0 →
      ∃ job target output g text, arguments.job = .ok job ∧ job.target = some target ∧
        arguments.output = some output ∧ arguments.graph? (host.view s) = some g ∧
        Arrives output text (host.view s) (host.view outcome.2) outcome.1.printed.output ∧
        (∀ source, (∃ result, target.read text source none = .ok result ∧
            Isomorphic g.triples result.triples) ↔
          (target = .turtle → Turtle.Recoverable job.options g)) ∧
        ((∀ value, arguments.base = some (.text value) → hasScheme value.toList = true) →
          ∀ iri ∈ Turtle.writtenBase job.options g, iri.isAbsolute = true) := by
  rw [run_of_read host hread]
  intro outcome hstatus
  obtain ⟨output, text, houtput, hdocument, harrives⟩ := arrives_of_status host hvalidate hstatus
  obtain ⟨job, target, g, hjob, htarget, hg, hwrite⟩ :=
    Arguments.document?_eq_some_iff.1 hdocument
  obtain ⟨_, input, -, -, hgraph⟩ := Arguments.graph?_eq_some_iff.1 hg
  refine ⟨job, target, output, g, text, hjob, htarget, houtput, hg, harrives,
    Format.read_written_iff hgraph hwrite, fun hbase iri hiri => ?_⟩
  refine Arguments.isAbsolute_base hg hbase ?_
  rw [Turtle.writtenBase] at hiri
  split at hiri
  · exact hiri
  · cases hiri

/-- A list is written as a collection, which is read again. -/
theorem run_recovered_list :
    let content : List UInt8 :=
      [0x3C, 0x70, 0x3A, 0x3E, 0x3C, 0x70, 0x3A, 0x3E, 0x28, 0x31, 0x29, 0x2E]
    let tree : FileTree := .ofEntries ["w"] [] [(["w", "d.ttl"], content)] []
    let outcome := (run FileTree.host.system ["d.ttl", "o.ttl"]).run tree
    outcome.1.status = 0 ∧ ∃ text result,
      outcome.2.view.files ["w", "o.ttl"] = some text.toUTF8.toList ∧
      Turtle.read text (.text "o.ttl") none = .ok result ∧
      ∀ g, Arguments.graph? { input := "d.ttl", output := some "o.ttl" } tree.view = some g →
        g.triples.length = 3 ∧ Isomorphic g.triples result.triples := by
  intro content tree
  have hstatus : ((run FileTree.host.system ["d.ttl", "o.ttl"]).run tree).1.status = 0 := by
    decide +kernel
  have hplace : tree.view.place? (Path.ofText "o.ttl") = some ["w", "o.ttl"] := by decide +kernel
  let arguments : Arguments := { input := "d.ttl", output := some "o.ttl" }
  have hread : Arguments.read ["d.ttl", "o.ttl"] = .ok arguments := by decide +kernel
  have hgraph : (arguments.graph? tree.view).all fun g => g.triples.length = 3 ∧
      (Turtle.Options.chains {} g.triples).length ≤ maxNesting := by decide +kernel
  have hrecovered := run_recovered FileTree.host tree hread rfl
  generalize (run FileTree.host.system ["d.ttl", "o.ttl"]).run tree = outcome
    at hstatus hrecovered ⊢
  obtain ⟨job, target, output, g, text, hjob, htarget, houtput, hg, harrives, hiff, hbase⟩ :=
    hrecovered hstatus
  have hmade : arguments.job = .ok ⟨.turtle, some .turtle, {}⟩ := by decide +kernel
  obtain rfl := Except.ok.inj (hmade.symm.trans hjob)
  obtain rfl := Option.some.inj htarget
  obtain rfl := Option.some.inj houtput
  replace hg : arguments.graph? tree.view = some g := hg
  have hg' : g.triples.length = 3 ∧ (Turtle.Options.chains {} g.triples).length ≤ maxNesting := by
    simpa [hg] using hgraph
  have hrecoverable : Turtle.Recoverable {} g :=
    ⟨hbase nofun, fun row hrow =>
      ((Turtle.Forest.of_options {} g.triples).length_le_of_isNest hrow).trans hg'.2⟩
  obtain ⟨result, hresult, hisomorphic⟩ := (hiff (.text "o.ttl")).2 fun _ => hrecoverable
  have hview : outcome.2.view = _ := (harrives.eq_withFile (by decide) hplace).2
  refine ⟨hstatus, text, result, by rw [hview]; exact View.files_withFile, hresult,
    fun g' hg'' => ?_⟩
  obtain rfl := Option.some.inj (hg.symm.trans hg'')
  exact ⟨hg'.1, hisomorphic⟩

/-- A base that is not absolute is written, and what has been written is refused for it. -/
theorem run_relative_base :
    let content : List UInt8 :=
      [0x3C, 0x70, 0x3A, 0x3E, 0x3C, 0x70, 0x3A, 0x3E, 0x3C, 0x70, 0x3A, 0x3E, 0x2E]
    let tree : FileTree := .ofEntries ["w"] [] [(["w", "d.ttl"], content)] []
    let outcome := (run FileTree.host.system ["--base", "b", "d.ttl", "o.ttl"]).run tree
    let text := "@base <b> .\n\n<p:> <p:> <p:> .\n"
    outcome.1.status = 0 ∧ outcome.2.view.files ["w", "o.ttl"] = some text.toUTF8.toList ∧
      ∀ result, Turtle.read text (.text "o.ttl") none ≠ .ok result := by
  intro content tree
  let arguments : Arguments :=
    { input := "d.ttl", output := some "o.ttl", base := some (.text "b") }
  have hread : Arguments.read ["--base", "b", "d.ttl", "o.ttl"] = .ok arguments := by
    decide +kernel
  rw [run_of_read FileTree.host hread]
  have hstatus : ((runArguments FileTree.host.system arguments).run tree).1.status = 0 := by
    decide +kernel
  have hplace : tree.view.place? (Path.ofText "o.ttl") = some ["w", "o.ttl"] := by decide +kernel
  have hwritten : arguments.document? tree.view = some "@base <b> .\n\n<p:> <p:> <p:> .\n" := by
    decide +kernel
  have hrefused : (Turtle.read "@base <b> .\n\n<p:> <p:> <p:> .\n" (.text "o.ttl") none).toOption =
      none := by decide +kernel
  obtain ⟨output, text, houtput, hdocument, harrives⟩ := arrives_of_status FileTree.host rfl hstatus
  obtain rfl := Option.some.inj houtput
  obtain rfl := Option.some.inj (hwritten.symm.trans hdocument)
  have hview : ((runArguments FileTree.host.system arguments).run tree).2.view = _ :=
    (harrives.eq_withFile (by decide) hplace).2
  refine ⟨hstatus, by rw [hview]; exact View.files_withFile, fun result hread => ?_⟩
  rw [hread] at hrefused
  cases hrefused

end Rdf.Command

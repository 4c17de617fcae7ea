import Rdf.Proofs.Command.Conversion
import Rdf.Proofs.Document.Recovery
import Rdf.Proofs.Document.Streams

/-!
Files that are converted, and files that are read as streams.

A run makes text of a file in its own way. It keeps a byte order mark, which no document begins
with, and has line feeds for line ends, which tells only inside of a token.
-/

namespace Rdf

open Document Text

/-! ### Marks -/

/-- No word begins with the character of a byte order mark, and no document with a name. -/
theorem Turtle.read_marked {text : String} {rest : List Char} (h : text.toList = markChar :: rest)
    (source : SourceName) (base : Option Iri) (g : Graph) : read text source base ≠ .ok g := by
  intro hread
  obtain ⟨lexemes, s, hlexes, hrun, -⟩ := read_eq_ok_iff.1 hread
  rw [h] at hlexes
  obtain ⟨l, left, later, hscan, rfl, -⟩ := hlexes.of_cons (by decide)
  rw [(Lexeme.scan_name (.inr (by decide)) _ _).2.2] at hscan
  have hword : ∀ label, Lexeme.keyword? (markChar :: label) = none :=
    Lexeme.keyword?_eq_none rfl (by decide) (by decide)
  obtain ⟨label, value, -, -, rfl⟩ := Lexeme.name_of_scanName hword hscan
  -- No label is bound before the first directive.
  have hunbound : machine.step { graph := { base } } (.name (String.ofList label) value) =
      .error (.resolution (.undefinedLabel (String.ofList label))) := rfl
  rw [Machine.runLexemes, hunbound] at hrun
  cases hrun

namespace Command

variable {bytes : List UInt8} {text : String}

/-- The bytes of a text with no mark are the text with line feeds for line ends. -/
theorem textOf_of_encodes (h : Encodes bytes text) (hmark : ¬Utf8.mark <+: bytes) :
    textOf bytes = .ok (String.ofList (unifyLines text.toList)) := by
  rw [encodes_iff, Utf8.dropMark, if_neg (mt List.isPrefixOf_iff_prefix.1 hmark)] at h
  rw [textOf, h]

/-- Behind a mark, the bytes of a text are the text with the character of the mark before it. -/
theorem textOf_of_marked (h : Encodes bytes text) (hmark : Utf8.mark <+: bytes) :
    textOf bytes = .ok (String.ofList (markChar :: unifyLines text.toList)) := by
  obtain ⟨behind, rfl⟩ := hmark
  have hdecode : Utf8.decode (Utf8.mark ++ behind) = .ok (markChar :: text.toList) := by
    rw [Encodes, Utf8.dropMark, if_pos (List.isPrefixOf_iff_prefix.2 (List.prefix_append _ _)),
      List.drop_left, Utf8.toUTF8_toList] at h
    rw [Utf8.decode_eq_ok_iff, Utf8.toUTF8_toList, String.toList_ofList, List.flatMap_cons, h]
    rfl
  simp only [textOf, hdecode, unifyLines_cons (by decide : markChar ≠ '\r')]

/-! ### Conversions of files -/

variable {source : SourceName} {base : Option Plain} {g : Graph}

theorem read_of_readContent {format : Format}
    (h : format.readContent (.bytes bytes) source base = .ok g) :
    ∃ text, Encodes bytes text ∧ format.read text (.text source.toText) base = .ok g := by
  rw [Format.readContent] at h
  cases hdecode : decode source (.bytes bytes) with
  | error failure =>
    rw [hdecode] at h
    cases h
  | ok text => exact ⟨text, encodes_of_decode hdecode, by rwa [hdecode] at h⟩

/-- Line feeds for line ends leave the graph of a text as it is, where no token has a carriage
return in it. -/
theorem read_unifyLines (h : Format.turtle.read text source base = .ok g)
    (hapart : Token.ReturnsApart text) (source : SourceName) :
    Format.turtle.read (String.ofList (unifyLines text.toList)) source base = .ok g := by
  obtain ⟨initial, hinitial, hread⟩ := Format.turtle_read_eq_ok_iff.1 h
  obtain ⟨lexemes, s, hlexes, hrun, hgraph⟩ := Turtle.read_eq_ok_iff.1 hread
  refine Format.turtle_read_eq_ok_iff.2 ⟨initial, hinitial, Turtle.read_eq_ok_iff.2
    ⟨lexemes, s, ?_, hrun, hgraph⟩⟩
  rw [String.toList_ofList]
  exact hapart.lexes hlexes

variable {σ κ : Type} [DecidableEq κ] (host : Host σ κ) (s : σ) {written : List String}
  {arguments : Arguments} {options : Turtle.Options}

variable {host s} in
/-- No file of Turtle with a mark is converted. -/
theorem status_of_marked {job : Job} (hjob : arguments.job = .ok job)
    (hsource : job.source = .turtle)
    (hcontent : (host.view s).content? arguments.input = some bytes) (htext : Encodes bytes text)
    (hmark : Utf8.mark <+: bytes) :
    ((runArguments host.system arguments).run s).1.status = 1 := by
  obtain ⟨-, ⟨g, hg⟩, -⟩ | ⟨hone, -⟩ := runArguments_ends host arguments s
  · obtain ⟨job, text', hjob', htext', hread⟩ := Arguments.graph?_eq_some_iff.1 hg
    obtain rfl := Except.ok.inj (hjob.symm.trans hjob')
    rw [hsource] at hread
    rw [Arguments.text?_of_content? hcontent, textOf_of_marked htext hmark] at htext'
    obtain rfl := Option.some.inj htext'
    obtain ⟨initial, -, hturtle⟩ := Format.turtle_read_eq_ok_iff.1 hread
    exact absurd hturtle (Turtle.read_marked String.toList_ofList _ _ _)
  · exact hone

/-- A file of Turtle that is read as a stream is converted to lines with the graph of the stream, up
to the names of blank nodes. The exceptions are files with a byte order mark, all of which are
refused, and files with a carriage return in a token, which is read as a line feed. -/
theorem run_agrees (hread : Arguments.read written = .ok arguments)
    (hjob : arguments.job = .ok ⟨.turtle, some .nTriples, options⟩)
    (hvalidate : arguments.validateOnly = false) (hinput : arguments.input ≠ standardPath)
    (hgives : host.Gives (host.view s) (Path.ofText arguments.input) bytes)
    (htakes : ∀ output, arguments.output = some output → output ≠ standardPath →
      ∀ text, host.Takes (host.view s) (Path.ofText output) text)
    (hstream : Format.turtle.readContent (.bytes bytes) source
      (arguments.baseFor (host.view s).directory) = .ok g) :
    let outcome := (run host.system written).run s
    (Utf8.mark <+: bytes → outcome.1.status = 1) ∧
      (¬Utf8.mark <+: bytes → (∀ text, Encodes bytes text → Token.ReturnsApart text) →
        outcome.1.status = 0 ∧ ∃ output lines, arguments.output = some output ∧
          Arrives output lines (host.view s) (host.view outcome.2) outcome.1.printed.output ∧
          ∀ source, ∃ result, Format.nTriples.read lines source none = .ok result ∧
            Isomorphic g.triples result.triples) := by
  have hcontent : (host.view s).content? arguments.input = some bytes :=
    (if_neg hinput).trans (host.fileAt_of_readFile (hgives s rfl))
  obtain ⟨text, htext, hg⟩ := read_of_readContent hstream
  rw [run_of_read host hread]
  refine ⟨status_of_marked hjob rfl hcontent htext, fun hmark hapart => ?_⟩
  obtain ⟨initial, -, hturtle⟩ := Format.turtle_read_eq_ok_iff.1 hg
  have hsound := Turtle.sound_of_read hturtle
  obtain ⟨lines, hlines⟩ : ∃ lines, NTriples.write g = .ok lines :=
    @Graph.Sound.exists_write _ _ hsound .nTriples {} nofun
  have hdocument : arguments.document? (host.view s) = some lines := by
    refine Arguments.document?_eq_some_iff.2 ⟨_, _, g, hjob, rfl, ?_, hlines⟩
    refine Arguments.graph?_eq_some_iff.2 ⟨_, _, hjob, ?_, read_unifyLines hg (hapart text htext) _⟩
    rw [Arguments.text?_of_content? hcontent, textOf_of_encodes htext hmark, Except.toOption]
  have hstatus := status_of_document? host (fun _ => ⟨bytes, hgives⟩) hdocument
    fun output houtput hne => htakes output houtput hne lines
  obtain ⟨output, document, houtput, hdocument', harrives⟩ :=
    arrives_of_status host hvalidate hstatus
  obtain rfl := Option.some.inj (hdocument.symm.trans hdocument')
  exact ⟨hstatus, output, lines, houtput, harrives,
    fun source => NTriples.read_written hsound.triples hlines source⟩

/-- A line that ends with a carriage return between its terms is converted as the stream reads
it. -/
theorem run_agrees_return :
    let content : List UInt8 :=
      [0x3C, 0x70, 0x3A, 0x3E, 0x0D, 0x0A, 0x3C, 0x70, 0x3A, 0x3E, 0x31, 0x2E]
    let tree : FileTree := .ofEntries ["w"] [] [(["w", "d.ttl"], content)] []
    let outcome := (run FileTree.host.system ["d.ttl", "o.nt"]).run tree
    outcome.1.status = 0 ∧ ∃ g lines result, g.triples.length = 1 ∧
      Format.turtle.readContent (.bytes content) (.text "name") (some (.text "file:///w/d.ttl")) =
        .ok g ∧
      outcome.2.view.files ["w", "o.nt"] = some lines.toUTF8.toList ∧
      Format.nTriples.read lines (.text "o.nt") none = .ok result ∧
      Isomorphic g.triples result.triples := by
  intro content tree
  let arguments : Arguments := { input := "d.ttl", output := some "o.nt" }
  have hread : Arguments.read ["d.ttl", "o.nt"] = .ok arguments := by decide +kernel
  have hjob : arguments.job = .ok ⟨.turtle, some .nTriples, {}⟩ := by decide +kernel
  have hgives : FileTree.host.Gives tree.view (Path.ofText "d.ttl") content :=
    FileTree.gives_of_fileAt (by decide +kernel)
  have hplace : tree.view.place? (Path.ofText "o.nt") = some ["w", "o.nt"] := by decide +kernel
  have hbase : arguments.baseFor tree.view.directory = some (.text "file:///w/d.ttl") := by
    decide +kernel
  have hlength : (Format.turtle.readContent (.bytes content) (.text "name")
      (some (.text "file:///w/d.ttl"))).toOption.map (·.triples.length) = some 1 := by
    decide +kernel
  have hapart : ∀ text, Encodes content text → Token.ReturnsApart text := by
    intro text htext
    have hdecode : Utf8.decode (Utf8.dropMark content) = .ok "<p:>\r\n<p:>1.".toList := by
      decide +kernel
    obtain rfl := String.toList_inj.1 (Except.ok.inj (hdecode.symm.trans (encodes_iff.1 htext)))
    decide +kernel
  cases hg : Format.turtle.readContent (.bytes content) (.text "name")
      (some (.text "file:///w/d.ttl")) with
  | error failure => simp [hg, Except.toOption] at hlength
  | ok g =>
    have hagrees := run_agrees FileTree.host tree hread hjob rfl (by decide) hgives
      (fun output houtput _ text => by
        obtain rfl := Option.some.inj houtput
        exact FileTree.takes_of_place? hplace text) (hbase ▸ hg)
    generalize (run FileTree.host.system ["d.ttl", "o.nt"]).run tree = outcome at hagrees ⊢
    obtain ⟨hstatus, output, lines, houtput, harrives, hlines⟩ := hagrees.2 (by decide) hapart
    obtain rfl := Option.some.inj houtput
    obtain ⟨result, hresult, hisomorphic⟩ := hlines (.text "o.nt")
    have hview : outcome.2.view = _ := (harrives.eq_withFile (by decide) hplace).2
    refine ⟨hstatus, g, lines, result, by simpa [hg, Except.toOption] using hlength, rfl,
      by rw [hview]; exact View.files_withFile, hresult, hisomorphic⟩

/-- A stream may begin with a byte order mark and may have a carriage return in a string. A file
with the one is refused, and of a file with the other the lines have a line feed. -/
theorem run_differs :
    let marked : List UInt8 := [0xEF, 0xBB, 0xBF, 0x3C, 0x70, 0x3A, 0x3E, 0x3C, 0x70, 0x3A, 0x3E,
      0x31, 0x2E]
    let returning : List UInt8 := [0x3C, 0x70, 0x3A, 0x3E, 0x3C, 0x70, 0x3A, 0x3E, 0x22, 0x22, 0x22,
      0x0D, 0x22, 0x22, 0x22, 0x2E]
    let stream (content : List UInt8) := Format.turtle.readContent (.bytes content) (.text "name")
      (some (.text "file:///w/d.ttl"))
    let outcome (content : List UInt8) := (run FileTree.host.system ["d.ttl", "o.nt"]).run
      (.ofEntries ["w"] [] [(["w", "d.ttl"], content)] [])
    let lines := "<p:> <p:> \"\\n\" .\n"
    ((∃ g, stream marked = .ok g) ∧ (outcome marked).1.status = 1) ∧
      (outcome returning).1.status = 0 ∧
      (outcome returning).2.view.files ["w", "o.nt"] = some lines.toUTF8.toList ∧
      ∃ g result, stream returning = .ok g ∧
        Format.nTriples.read lines (.text "o.nt") none = .ok result ∧
        ¬Isomorphic g.triples result.triples := by
  intro marked returning stream outcome lines
  have hmarked : (stream marked).toOption.isSome := by decide +kernel
  obtain ⟨g, hg⟩ := Option.isSome_iff_exists.1 hmarked
  refine ⟨⟨⟨g, toOption_eq_some.1 hg⟩, by decide +kernel⟩, by decide +kernel, by decide +kernel, ?_⟩
  let held (value : String) : List Triple :=
    [⟨.iri ⟨"p:"⟩, .iri ⟨"p:"⟩, .literal { value }⟩]
  have hstream : (stream returning).toOption.map (·.triples) = some (held "\r") := by
    decide +kernel
  have hread : (Format.nTriples.read lines (.text "o.nt") none).toOption.map (·.triples) =
      some (held "\n") := by decide +kernel
  obtain ⟨g, hg, hheld⟩ := Option.map_eq_some_iff.1 hstream
  obtain ⟨result, hresult, hheld'⟩ := Option.map_eq_some_iff.1 hread
  refine ⟨g, result, toOption_eq_some.1 hg, toOption_eq_some.1 hresult, fun hisomorphic => ?_⟩
  rw [hheld, hheld', isomorphic_iff_blankTriples] at hisomorphic
  have hmem := (hisomorphic.1 _ (by decide)).1 (List.mem_singleton_self _)
  exact absurd hmem (by decide)

end Command

end Rdf

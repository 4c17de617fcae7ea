import Rdf.Document.Format
import Rdf.Proofs.Text.Utf8

/-!
Streams of bytes and streams of text.

A document is the same whether its text is given, or comes from a stream of text or of bytes. Bytes
that are no text are refused before anything is read.
-/

namespace Rdf

namespace Document

variable {bytes : List UInt8} {text : String} {source : SourceName}

/-- The bytes, without one leading byte order mark, are the text in UTF-8. -/
def Encodes (bytes : List UInt8) (text : String) : Prop :=
  text.toUTF8.toList = Utf8.dropMark bytes

theorem encodes_iff : Encodes bytes text ↔ Utf8.decode (Utf8.dropMark bytes) = .ok text.toList := by
  rw [Utf8.decode_eq_ok_iff, String.ofList_toList, Encodes]

theorem decode_bytes (h : Encodes bytes text) : decode source (.bytes bytes) = .ok text := by
  rw [decode, encodes_iff.1 h]
  exact congrArg Except.ok String.ofList_toList

theorem encodes_of_decode (h : decode source (.bytes bytes) = .ok text) : Encodes bytes text := by
  rw [decode] at h
  split at h
  · next found hfound =>
    rw [encodes_iff, hfound, ← Except.ok.inj h, String.toList_ofList]
  · cases h

theorem decode_of_not_encodes (h : ∀ text, ¬Encodes bytes text) :
    ∃ fault, ∀ source, decode source (.bytes bytes) =
      .error (.ofLexical source ⟨.start, .notUtf8 fault⟩) := by
  cases hdecode : Utf8.decode (Utf8.dropMark bytes) with
  | ok text => exact absurd (encodes_iff.2 (by rw [hdecode, String.toList_ofList])) (h (.ofList text))
  | error fault => exact ⟨fault, fun source => by rw [decode, hdecode]⟩

theorem decode_marked (text : String) :
    decode source (.text (String.singleton markChar ++ text)) = .ok text := by
  simp [decode, dropMark]

theorem decode_text (h : text.toList.head? ≠ some markChar) :
    decode source (.text text) = .ok text := by
  have hdrop : dropMark text.toList = text.toList := by
    cases htext : text.toList with
    | nil => rfl
    | cons c rest => exact if_neg fun hc => h (by rw [htext, hc]; rfl)
  rw [decode, hdrop, String.ofList_toList]

end Document

namespace Format

open Document

/-- All ways to hand over a document read the same. Bytes that encode a text are read as that text
is from a stream, behind a byte order mark or without one, and as it is when it is given; other
bytes are refused at the first place, whatever the format and the base. -/
theorem readContent_agrees (bytes : List UInt8) (source : SourceName) :
    (∀ text, Encodes bytes text → ∀ (format : Format) (base : Option Plain),
      let reading := format.readContent (.bytes bytes) source base
      format.readContent (.text (String.singleton markChar ++ text)) source base = reading ∧
        (text.toList.head? ≠ some markChar →
          format.readContent (.text text) source base = reading ∧
            format.read text (.text source.toText) base = reading)) ∧
      ((∀ text, ¬Encodes bytes text) →
        ∃ fault, ∀ (format : Format) (base : Option Plain),
          format.readContent (.bytes bytes) source base =
            .error (.document ⟨source, ⟨1, 1⟩, .lexical (.notUtf8 fault)⟩)) := by
  refine ⟨fun text htext format base => ?_, fun hbytes => ?_⟩
  · have hread : format.readContent (.bytes bytes) source base =
        format.read text (.text source.toText) base := by
      rw [readContent, decode_bytes htext]
    refine ⟨?_, fun hunmarked => ⟨?_, hread.symm⟩⟩
    · rw [readContent, decode_marked, hread]
    · rw [readContent, decode_text hunmarked, hread]
  · obtain ⟨fault, hfault⟩ := decode_of_not_encodes hbytes
    exact ⟨fault, fun format base => by rw [readContent, hfault]; rfl⟩

/-- A marked document is read as its text is, and an overlong letter is none. -/
theorem readContent_agrees_marked :
    let text := "_:é <p:> <o:>."
    let bytes : List UInt8 := [0xEF, 0xBB, 0xBF, 0x5F, 0x3A, 0xC3, 0xA9, 0x20, 0x3C, 0x70, 0x3A,
      0x3E, 0x20, 0x3C, 0x6F, 0x3A, 0x3E, 0x2E]
    (∃ g, nTriples.readContent (.bytes bytes) (.text "name") none = .ok g ∧
      nTriples.read text (.text "name") none = .ok g ∧ g.triples.length = 1) ∧
      ∃ fault, nTriples.readContent (.bytes [0x5F, 0x3A, 0xC1, 0xA1]) (.number 3) none =
        .error (.document ⟨.number 3, ⟨1, 1⟩, .lexical (.notUtf8 fault)⟩) := by
  intro text bytes
  have htext : Encodes bytes text := encodes_iff.2 (by decide +kernel)
  have hunmarked : text.toList.head? ≠ some markChar := by decide +kernel
  have hlength : (nTriples.read text (.text "name") none).toOption.map (·.triples.length) =
      some 1 := by decide +kernel
  constructor
  · have hread := (((readContent_agrees bytes (.text "name")).1 text htext nTriples none).2
      hunmarked).2
    cases hg : nTriples.read text (.text "name") none with
    | error failure => simp [hg, Except.toOption] at hlength
    | ok g => exact ⟨g, hread.symm.trans hg, rfl, by simpa [hg, Except.toOption] using hlength⟩
  · have hbytes : ∀ text, ¬Encodes [0x5F, 0x3A, 0xC1, 0xA1] text := fun text h => by
      have hdecode : (Utf8.decode (Utf8.dropMark [0x5F, 0x3A, 0xC1, 0xA1])).toOption = none := by
        decide +kernel
      rw [encodes_iff.1 h] at hdecode
      cases hdecode
    obtain ⟨fault, hfault⟩ := (readContent_agrees [0x5F, 0x3A, 0xC1, 0xA1] (.number 3)).2 hbytes
    exact ⟨fault, hfault nTriples none⟩

end Format

end Rdf

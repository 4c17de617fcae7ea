import Rdf.Proofs.Token.Escapes
import Rdf.Proofs.Token.Labels
import Rdf.Token.Lexeme
import Rdf.Turtle.LocalName

/-!
Prefixed names and keywords are read back, with the escapes of their local parts decoded.
-/

namespace Rdf

open Text Scan Turtle

/-! ### Local parts -/

namespace Turtle

variable {text written piece rest : List Char} {isFirst isLast : Bool} {c : Char}

/-- Whether a character is written in a local part as it is. -/
def isPlainIn (isFirst : Bool) (c : Char) : Bool :=
  c == ':' || if isFirst then isNameStart c || isDigit c else isNameChar c

/-- A character is written as it is, as a dot inside the text, or behind a backslash. -/
theorem localChar_cases (h : localChar isFirst isLast c = some piece) :
    (piece = [c] ∧ isPlainIn isFirst c = true) ∨
      (piece = ['.'] ∧ c = '.' ∧ isFirst = false ∧ isLast = false) ∨
      (piece = ['\\', c] ∧ localEscapes.contains c = true) := by
  by_cases hplain : isPlainIn isFirst c = true
  · have hpiece : localChar isFirst isLast c = some [c] := by
      by_cases hcolon : c = ':'
      · simp [localChar, hcolon]
      · have hname : (if isFirst then isNameStart c || isDigit c else isNameChar c) = true := by
          simpa [isPlainIn, hcolon] using hplain
        rw [localChar, if_neg hcolon, if_pos hname]
    exact .inl ⟨Option.some.inj (h.symm.trans hpiece), hplain⟩
  · obtain ⟨hcolon, hname⟩ : c ≠ ':' ∧
        ¬(if isFirst then isNameStart c || isDigit c else isNameChar c) = true := by
      simpa only [isPlainIn, Bool.or_eq_true, beq_iff_eq, not_or] using hplain
    rw [localChar, if_neg hcolon, if_neg hname] at h
    by_cases hdot : c = '.' ∧ !isFirst ∧ !isLast
    · rw [if_pos hdot] at h
      obtain ⟨rfl, hfirst, hlast⟩ := hdot
      exact .inr (.inl ⟨(Option.some.inj h).symm, rfl, by simpa using hfirst, by simpa using hlast⟩)
    · rw [if_neg hdot] at h
      by_cases hescape : localEscapes.contains c = true
      · rw [if_pos hescape] at h
        exact .inr (.inr ⟨(Option.some.inj h).symm, hescape⟩)
      · rw [if_neg hescape] at h
        simp at h

theorem isPlainIn_cases (h : isPlainIn isFirst c = true) : c = ':' ∨ isNameChar c = true := by
  simp only [isPlainIn, Bool.or_eq_true, beq_iff_eq] at h
  apply h.imp_right
  intro hname
  cases isFirst with
  | true =>
    have hstart : isNameStart c = true ∨ isDigit c = true := by simpa using hname
    cases hstart with
    | inl hc => simp [isNameChar, hc]
    | inr hc => simp [isNameChar, hc]
  | false => exact hname

theorem dotsLeadOn_dot (rest : List Char) : dotsLeadOn ('.' :: rest) = dotsLeadOn rest := by
  simp [dotsLeadOn]

theorem dotsLeadOn_of_isLocalChar (h : isLocalChar c = true) (rest : List Char) :
    dotsLeadOn (c :: rest) = true := by
  have hdot : (c == '.') = false := by
    rw [beq_eq_false_iff_ne]
    rintro rfl
    exact absurd h (by decide)
  simp [dotsLeadOn, hdot, h]

/-- Dots lead on to what is written behind them. -/
theorem dotsLeadOn_localChar (h : localChar isFirst isLast c = some piece)
    (hrest : isLast = false → dotsLeadOn rest = true) : dotsLeadOn (piece ++ rest) = true := by
  obtain ⟨rfl, hc⟩ | ⟨rfl, -, -, hlast⟩ | ⟨rfl, -⟩ := localChar_cases h
  · have hlocal : isLocalChar c = true := by
      cases isPlainIn_cases hc with
      | inl hc => simp [hc, isLocalChar]
      | inr hc => simp [hc, isLocalChar]
    exact dotsLeadOn_of_isLocalChar hlocal rest
  · rw [List.singleton_append, dotsLeadOn_dot]
    exact hrest hlast
  · exact dotsLeadOn_of_isLocalChar rfl _

theorem dotsLeadOn_written (h : escapeFrom isFirst text = some written) (hne : text ≠ [])
    (rest : List Char) : dotsLeadOn (written ++ rest) = true := by
  fun_induction escapeFrom isFirst text generalizing written with
  | case1 => exact (hne rfl).elim
  | case2 =>
    obtain ⟨more, -, he⟩ := Option.bind_eq_some_iff.1 h
    obtain rfl := Option.some.inj he
    exact dotsLeadOn_of_isLocalChar rfl _
  | case3 isFirst high low text _ ih =>
    obtain ⟨piece, hpiece, he⟩ := Option.bind_eq_some_iff.1 h
    obtain ⟨more, hmore, he⟩ := Option.bind_eq_some_iff.1 he
    obtain rfl := Option.some.inj he
    rw [List.append_assoc]
    exact dotsLeadOn_localChar hpiece fun _ => ih hmore (by simp)
  | case4 isFirst c text _ ih =>
    obtain ⟨piece, hpiece, he⟩ := Option.bind_eq_some_iff.1 h
    obtain ⟨more, hmore, he⟩ := Option.bind_eq_some_iff.1 he
    obtain rfl := Option.some.inj he
    rw [List.append_assoc]
    exact dotsLeadOn_localChar hpiece fun hlast => ih hmore (by simpa using hlast)

theorem localStep_localChar (h : localChar isFirst isLast c = some piece)
    (hrest : isLast = false → dotsLeadOn rest = true) :
    localStep (piece ++ rest) = .ok (some [c], rest) := by
  obtain ⟨rfl, hc⟩ | ⟨rfl, rfl, -, hlast⟩ | ⟨rfl, hc⟩ := localChar_cases h
  · have hplain := isPlainIn_cases hc
    have hpercent : c ≠ '%' := by
      rintro rfl
      exact absurd hplain (by decide)
    have hslash : c ≠ '\\' := by
      rintro rfl
      exact absurd hplain (by decide)
    simp [localStep, hpercent, hslash, hplain]
  · have hdots := hrest hlast
    rw [← dotsLeadOn_dot] at hdots
    have hname : isNameChar '.' = false := by decide
    simp [localStep, hname, hdots]
  · have hmem : c ∈ localEscapes := by simpa using hc
    simp [localStep, localEscape, hmem]

theorem localStep_separator (h : AtSeparator rest) : localStep rest = .ok (none, rest) := by
  cases rest with
  | nil => rfl
  | cons c rest =>
    have hstops : separators.all (fun d => !(isLocalChar d || d == '.')) = true := by decide
    have hc : isLocalChar c = false ∧ c ≠ '.' := by simpa using h.all hstops
    obtain ⟨hlocal, hdot⟩ := hc
    simp only [isLocalChar, Bool.or_eq_false_iff, beq_eq_false_iff_ne] at hlocal
    simp [localStep, hlocal, hdot]

/-- What is written for a text reads as the text. -/
theorem gather_written (h : escapeFrom isFirst text = some written) (hrest : AtSeparator rest) :
    gather localStep length_localStep (written ++ rest) = .ok (text, rest) := by
  fun_induction escapeFrom isFirst text generalizing written with
  | case1 =>
    obtain rfl := Option.some.inj h
    exact gather_none length_localStep (localStep_separator hrest)
  | case2 isFirst high low text hhex ih =>
    obtain ⟨more, hmore, he⟩ := Option.bind_eq_some_iff.1 h
    obtain rfl := Option.some.inj he
    have hstep : localStep ('%' :: high :: low :: (more ++ rest)) =
        .ok (some ['%', high, low], more ++ rest) := by
      simp [localStep, percentEscape, Bool.and_eq_true_iff.1 hhex]
    exact gather_some length_localStep hstep (ih hmore)
  | case3 isFirst high low text _ ih =>
    obtain ⟨piece, hpiece, he⟩ := Option.bind_eq_some_iff.1 h
    obtain ⟨more, hmore, he⟩ := Option.bind_eq_some_iff.1 he
    obtain rfl := Option.some.inj he
    rw [List.append_assoc]
    have hdots := dotsLeadOn_written hmore (by simp) rest
    exact gather_some length_localStep (localStep_localChar hpiece fun _ => hdots) (ih hmore)
  | case4 isFirst c text _ ih =>
    obtain ⟨piece, hpiece, he⟩ := Option.bind_eq_some_iff.1 h
    obtain ⟨more, hmore, he⟩ := Option.bind_eq_some_iff.1 he
    obtain rfl := Option.some.inj he
    rw [List.append_assoc]
    have hstep := localStep_localChar hpiece fun hlast =>
      dotsLeadOn_written hmore (by simpa using hlast) rest
    exact gather_some length_localStep hstep (ih hmore)

theorem startsLocal_localChar (h : localChar true isLast c = some piece) :
    ∃ d more, piece = d :: more ∧ ∀ rest, startsLocal (d :: rest) = true := by
  obtain ⟨rfl, hc⟩ | ⟨-, -, hfirst, -⟩ | ⟨rfl, -⟩ := localChar_cases h
  · refine ⟨c, [], rfl, fun _ => ?_⟩
    have hstart : c = ':' ∨ isNameStart c = true ∨ isDigit c = true := by
      simpa [isPlainIn] using hc
    obtain hc | hc | hc := hstart <;> simp [startsLocal, hc]
  · simp at hfirst
  · exact ⟨'\\', [c], rfl, fun _ => rfl⟩

theorem startsLocal_written (h : escapeLocal text = some written) (hne : text ≠ []) :
    ∃ c more, written = c :: more ∧ ∀ rest, startsLocal (c :: rest) = true := by
  unfold escapeLocal escapeFrom at h
  split at h
  · exact (hne rfl).elim
  · split at h
    · obtain ⟨more, -, he⟩ := Option.bind_eq_some_iff.1 h
      exact ⟨_, _, (Option.some.inj he).symm, fun _ => rfl⟩
    · obtain ⟨piece, hpiece, he⟩ := Option.bind_eq_some_iff.1 h
      obtain ⟨more, -, he⟩ := Option.bind_eq_some_iff.1 he
      obtain ⟨d, tail, rfl, hstarts⟩ := startsLocal_localChar hpiece
      exact ⟨d, _, (Option.some.inj he).symm, hstarts⟩
  · obtain ⟨piece, hpiece, he⟩ := Option.bind_eq_some_iff.1 h
    obtain ⟨more, -, he⟩ := Option.bind_eq_some_iff.1 he
    obtain ⟨d, tail, rfl, hstarts⟩ := startsLocal_localChar hpiece
    exact ⟨d, _, (Option.some.inj he).symm, hstarts⟩

/-- A local part that is written ends where it should, and what begins it does not end a name. -/
theorem localPart_written (h : escapeLocal text = some written) (hne : text ≠ [])
    (hrest : AtSeparator rest) :
    atBoundary (written ++ rest) = false ∧ localPart (written ++ rest) = .ok (text, rest) := by
  obtain ⟨c, more, rfl, hstarts⟩ := startsLocal_written h hne
  constructor
  · have hends : (layout ++ boundaryMarks).all (fun d => !startsLocal [d]) = true := by decide
    rw [List.cons_append, atBoundary, Bool.eq_false_iff]
    intro hboundary
    have hmem : c ∈ layout ++ boundaryMarks := by
      simpa [isBoundaryChar, isLayout] using hboundary
    have hstops : startsLocal [c] = false := by simpa using List.all_eq_true.1 hends c hmem
    exact Bool.noConfusion (hstops.symm.trans (hstarts []))
  · have hgather := gather_written h hrest
    rw [List.cons_append] at hgather ⊢
    rw [localPart, if_pos (hstarts _), hgather]

end Turtle

/-! ### Prefixed names and keywords -/

namespace Lexeme

variable {label text written rest : List Char} {c : Char}

def endsLabel (c : Char) : Bool := !isNameChar c && c != '.'

theorem scanLabel_label (hlabel : isSpaceLabel label = true)
    (hrest : rest.head?.all endsLabel = true) : scanLabel (label ++ rest) = (label, rest) := by
  cases label with
  | nil =>
    cases rest with
    | nil => rfl
    | cons c rest =>
      have hname : isNameChar c = false := by
        have hc : isNameChar c = false ∧ c ≠ '.' := by simpa [endsLabel] using hrest
        exact hc.1
      have hbase : isNameBase c = false := by
        simp only [isNameChar, isNameStart, Bool.or_eq_false_iff] at hname
        exact hname.1.1.1.2
      simp [scanLabel, hbase]
  | cons c label =>
    obtain ⟨hc, htail⟩ := Bool.and_eq_true_iff.1 hlabel
    have hname : isNameChar c = true := by simp [isNameChar, isNameStart, hc]
    have hdotted := dotted_label htail hrest
    have hwhole : dotted isNameChar (c :: (label ++ rest)) = (c :: label, rest) := by
      simp [dotted, hname, hdotted]
    simp [scanLabel, hc, hwhole]

theorem scanName_written (hlabel : isSpaceLabel label = true)
    (h : escapeLocal text = some written) (hrest : AtSeparator rest) :
    scanName (label ++ ':' :: (written ++ rest)) =
      .ok (.name (String.ofList label) (String.ofList text), rest) := by
  have hsplit := @scanLabel_label label (':' :: (written ++ rest)) hlabel
    (by simpa using (by decide : endsLabel ':' = true))
  by_cases htext : text = []
  · subst htext
    obtain rfl : [] = written := Option.some.inj h
    rw [List.nil_append] at hsplit ⊢
    simp [scanName, hsplit, hrest.atBoundary]
  · obtain ⟨hboundary, hlocal⟩ := localPart_written h htext hrest
    simp [scanName, hsplit, hboundary, hlocal]

theorem scanName_keyword {lexeme : Lexeme} (hlabel : isSpaceLabel label = true)
    (hword : keyword? label = some lexeme) (hrest : AtSeparator rest) :
    scanName (label ++ rest) = .ok (lexeme, rest) := by
  have hsplit := scanLabel_label hlabel (hrest.all (by decide))
  cases rest with
  | nil => simp only [scanName, hsplit, hword]
  | cons c rest =>
    have hcolon : c ≠ ':' := by
      rintro rfl
      exact absurd (hrest ':' rfl) (by decide)
    simp only [scanName, hsplit]
    split
    · simp_all
    · rw [hword]

theorem isDigit_of_isNameBase (h : isNameBase c = true) : isDigit c = false := by
  rw [Bool.eq_false_iff]
  intro hd
  simp only [isDigit, isNameBase, isLetter, inRanges, nameBaseRanges, List.any_cons,
    List.any_nil, Bool.and_eq_true, Bool.or_eq_true, decide_eq_true_eq, Char.le_def,
    UInt32.le_iff_toNat_le, Bool.or_false, Char.toNat] at hd h
  have h9 : ('9' : Char).val.toNat = 57 := rfl
  have hA : ('A' : Char).val.toNat = 65 := rfl
  have ha : ('a' : Char).val.toNat = 97 := rfl
  omega

/-- The characters that begin lexemes other than names, but for digits. -/
def opening : List Char :=
  ['<', '"', '\'', '@', '^', '_', '+', '-', '.', ';', ',', '[', ']', '(', ')', '#', ' ', '\t', '\r',
    '\n']

theorem scan_name (hc : c = ':' ∨ isNameBase c = true) (afterString : Bool) (rest : List Char) :
    isLayout c = false ∧ c ≠ '#' ∧ scan afterString (c :: rest) = scanName (c :: rest) := by
  have hnone : opening.all (fun d => !(d == ':' || isNameBase d)) = true := by decide
  have hne : ∀ d ∈ opening, c ≠ d := by
    intro d hd he
    have hd : c ≠ ':' ∧ isNameBase c = false := by
      simpa [← he] using List.all_eq_true.1 hnone d hd
    obtain rfl | hbase := hc
    · exact hd.1 rfl
    · exact Bool.noConfusion (hd.2.symm.trans hbase)
  have hdigit : isDigit c = false := by
    cases hc with
    | inl hc => exact hc ▸ rfl
    | inr hc => exact isDigit_of_isNameBase hc
  simp only [opening, List.forall_mem_cons] at hne
  simp [scan, isLayout, layout, startsNumber, Punct.ofChar?, hne, hdigit, hc]

end Lexeme

end Rdf

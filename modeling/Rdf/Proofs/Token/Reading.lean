import Rdf.Proofs.Token.Escapes
import Rdf.Proofs.Token.Labels
import Rdf.Token.Stream

/-!
Reading a text as a row of lexemes.

`Lexes` says what a text reads as, without places. Each written part of a document reads as its own
lexemes in front of whatever comes next, so that the parts of a document can be put together from
the last one on.
-/

namespace Rdf

open Text Scan

/-- A text, which may stand behind a string, reads as a row of lexemes up to its end. -/
inductive Lexes : Bool → List Char → List Lexeme → Prop
  | eof {afterString : Bool} {text : List Char} :
    skipLayout false text = [] → Lexes afterString text [.eof]
  | cons {afterString : Bool} {text rest left : List Char} {c : Char} {lexeme : Lexeme}
    {later : List Lexeme} : skipLayout false text = c :: rest →
    Lexeme.scan afterString (c :: rest) = .ok (lexeme, left) → Lexes lexeme.isString left later →
    Lexes afterString text (lexeme :: later)

namespace Token

variable {place : Place} {text rest left : List Char} {c : Char} {l : Lexeme}
  {afterString : Bool}

theorem scanFrom_of_nil (hskip : skipLayout false text = []) :
    scanFrom place afterString text = ⟨[⟨.eof, place.upTo text []⟩], none⟩ := by
  rw [scanFrom]
  split
  · rfl
  · simp_all

theorem scanFrom_of_error {fault : ScanFault} (hskip : skipLayout false text = c :: rest)
    (hscan : Lexeme.scan afterString (c :: rest) = .error fault) :
    scanFrom place afterString text =
      ⟨[], some ⟨(place.upTo text (c :: rest)).upTo (c :: rest) fault.site, fault.cause⟩⟩ := by
  rw [scanFrom]
  split
  · simp_all
  · next hc =>
    rw [hskip] at hc
    obtain ⟨rfl, rfl⟩ := List.cons.inj hc
    split <;> simp_all

theorem scanFrom_of_ok (hskip : skipLayout false text = c :: rest)
    (hscan : Lexeme.scan afterString (c :: rest) = .ok (l, left)) :
    scanFrom place afterString text =
      let start := place.upTo text (c :: rest)
      let later := scanFrom (start.upTo (c :: rest) left) l.isString left
      ⟨⟨l, start⟩ :: later.tokens, later.fault⟩ := by
  rw [scanFrom]
  split
  · simp_all
  · next hc =>
    rw [hskip] at hc
    obtain ⟨rfl, rfl⟩ := List.cons.inj hc
    split
    · simp_all
    · next hs =>
      rw [hscan] at hs
      obtain ⟨rfl, rfl⟩ := Prod.mk.inj (Except.ok.inj hs)
      rfl

end Token

theorem Lexes.scanFrom {afterString : Bool} {text : List Char} {lexemes : List Lexeme}
    (h : Lexes afterString text lexemes) (place : Place) :
    ∃ tokens, Token.scanFrom place afterString text = ⟨tokens, none⟩ ∧
      tokens.map (·.lexeme) = lexemes := by
  induction h generalizing place with
  | @eof afterString text hskip =>
    exact ⟨_, Token.scanFrom_of_nil hskip, rfl⟩
  | @cons afterString text rest left c lexeme later hskip hscan _ ih =>
    obtain ⟨tokens, htokens, hmap⟩ :=
      ih ((place.upTo text (c :: rest)).upTo (c :: rest) left)
    refine ⟨⟨lexeme, place.upTo text (c :: rest)⟩ :: tokens, ?_, by simp [hmap]⟩
    simp only [Token.scanFrom_of_ok hskip hscan, htokens]

/-- A text that is scanned without a fault reads as its lexemes. -/
theorem Lexes.of_scanFrom {place : Place} {afterString : Bool} {text : List Char}
    (h : (Token.scanFrom place afterString text).fault = none) :
    Lexes afterString text ((Token.scanFrom place afterString text).tokens.map (·.lexeme)) := by
  fun_induction Token.scanFrom place afterString text with
  | case1 place afterString text hskip => exact .eof hskip
  | case2 => cases h
  | case3 place afterString text c rest hskip start lexeme left hscan later ih =>
    exact .cons hskip hscan (ih h)

/-- What a text reads as is seen behind the layout that it begins with. -/
theorem Lexes.of_skipLayout {afterString : Bool} {text text' : List Char} {lexemes : List Lexeme}
    (hskip : skipLayout false text' = skipLayout false text) (h : Lexes afterString text lexemes) :
    Lexes afterString text' lexemes := by
  cases h with
  | eof he => exact .eof (hskip.trans he)
  | cons he hscan hlater => exact .cons (hskip.trans he) hscan hlater

theorem Lexes.layout {afterString : Bool} {c : Char} {rest : List Char} {later : List Lexeme}
    (hc : isLayout c = true) (h : Lexes afterString rest later) :
    Lexes afterString (c :: rest) later := h.of_skipLayout (by simp [skipLayout, hc])

/-- A text reads as a row of lexemes wherever it stands. -/
def Reads (text : List Char) (lexemes : List Lexeme) : Prop :=
  ∀ afterString, Lexes afterString text lexemes

theorem Reads.scanAll {text : List Char} {lexemes : List Lexeme} (h : Reads text lexemes) :
    ∃ tokens, Token.scanAll (String.ofList text) = ⟨tokens, none⟩ ∧
      tokens.map (·.lexeme) = lexemes := by
  have hs := (h false).scanFrom .start
  rwa [Token.scanAll, String.toList_ofList]

namespace Reads

variable {rest left : List Char} {later : List Lexeme}

theorem nil : Reads [] [.eof] := fun _ => .eof rfl

theorem layout {c : Char} (hc : isLayout c = true) (h : Reads rest later) :
    Reads (c :: rest) later := fun afterString => (h afterString).layout hc

theorem space (h : Reads rest later) : Reads (' ' :: rest) later := h.layout rfl

theorem of_space (h : Reads (' ' :: rest) later) : Reads rest later := by
  intro afterString
  cases h afterString with
  | eof he => exact .eof he
  | cons he hscan hlater => exact .cons he hscan hlater

theorem skipLayout_cons {c : Char} (hlayout : isLayout c = false) (hmark : c ≠ '#') :
    skipLayout false (c :: rest) = c :: rest := by
  simp [skipLayout, hlayout, hmark]

theorem lexeme {c : Char} {lexeme : Lexeme} (hlayout : isLayout c = false) (hmark : c ≠ '#')
    (hscan : ∀ afterString, Lexeme.scan afterString (c :: rest) = .ok (lexeme, left))
    (h : Lexes lexeme.isString left later) : Reads (c :: rest) (lexeme :: later) :=
  fun afterString => .cons (skipLayout_cons hlayout hmark) (hscan afterString) h

theorem punct (mark : Punct) (hdot : mark = .dot → AtSeparator rest)
    (h : Lexes false rest later) : Reads (mark.toChar :: rest) (.punct mark :: later) := by
  have hstart : Lexeme.startsNumber (mark.toChar :: rest) = false := by
    by_cases hm : mark = .dot
    · have hhead := (hdot hm).all (by decide : separators.all (fun c => !isDigit c) = true)
      have hpoint : isDigit '.' = false := by decide
      subst hm
      cases rest with
      | nil => rfl
      | cons c rest =>
        have hc : isDigit c = false := by simpa using hhead
        simp [Lexeme.startsNumber, Punct.toChar, hpoint, hc]
    · revert hm
      cases mark <;> simp [Lexeme.startsNumber, Punct.toChar, isDigit]
  have hscan : ∀ afterString, Lexeme.scan afterString (mark.toChar :: rest) =
      .ok (.punct mark, rest) := by
    intro afterString
    revert hstart
    cases mark <;> simp +contextual [Lexeme.scan, Punct.toChar, Punct.ofChar?]
  refine lexeme ?_ ?_ hscan h
  · cases mark <;> rfl
  · cases mark <;> decide

theorem iri (value : String) (h : Lexes false rest later) :
    Reads (Spelling.iriRef value ++ rest) (.iri value :: later) := by
  have hs := iriRef_written value rest
  simp only [Spelling.iriRef, List.cons_append] at hs ⊢
  refine lexeme rfl (by decide) (fun afterString => ?_) h
  simp only [Lexeme.scan, if_true, hs, String.ofList_toList]

theorem blank {label : String} (hlabel : isBlankLabel label.toList = true)
    (hrest : AtSeparator rest) (h : Lexes false rest later) :
    Reads ('_' :: ':' :: label.toList ++ rest) (.blank label :: later) := by
  have hs := blankLabel_append hlabel hrest
  refine lexeme rfl (by decide) (fun afterString => ?_) h
  simp [Lexeme.scan, hs, String.ofList_toList]

/-- A string reads in front of what goes on behind a string. -/
theorem string (value : String) (hquote : rest.head? ≠ some '"') (h : Lexes true rest later) :
    Reads (Spelling.string value ++ rest) (.string "\"" value :: later) := by
  have hs := quotation_written value hquote
  simp only [Spelling.string, List.cons_append] at hs ⊢
  intro afterString
  refine .cons (skipLayout_cons rfl (by decide)) ?_ h
  have hne : ¬ '"' = '<' := by decide
  simp only [Lexeme.scan, hne, if_false, true_or, if_true, hs, String.ofList_toList]

theorem languageTag {tag : String} (htag : isLanguageTag tag.toList = true)
    (hrest : AtSeparator rest) (h : Lexes false rest later) :
    Lexes true ('@' :: tag.toList ++ rest) (.languageTag tag :: later) := by
  have hs := Pattern.languageTag_append htag hrest
  refine .cons (skipLayout_cons rfl (by decide)) ?_ h
  simp [Lexeme.scan, Lexeme.scanAtWord, hs, String.ofList_toList]

theorem datatypeMark (h : Lexes false rest later) :
    Reads ('^' :: '^' :: rest) (.datatypeMark :: later) :=
  lexeme rfl (by decide) (fun _ => rfl) h

end Reads

end Rdf

import Rdf.Token.Stream

/-!
How far the scanners reach.

What a scanner leaves is an end of the text that it is given, and a fault is reported where an end
of that text begins. Tokens and faults therefore stand in the document, and a document without a
fault is read to its end.
-/

namespace Rdf

open Text

/-! ### Scanners -/

namespace Scan

variable {α : Type} {text whole rest : List Char}

/-- A scan leaves an end of a text, or has its fault where one begins. -/
def Within (text : List Char) : Scan α → Prop
  | .ok (_, rest) => rest <:+ text
  | .error fault => fault.site <:+ text

theorem Within.mono {scan : Scan α} (h : Within text scan) (hsuffix : text <:+ whole) :
    Within whole scan := by
  cases scan with
  | error fault => exact List.IsSuffix.trans h hsuffix
  | ok result => exact List.IsSuffix.trans h hsuffix

theorem Within.ok {scan : Scan α} (h : Within text scan) {value : α}
    (hscan : scan = .ok (value, rest)) : rest <:+ text := by
  rwa [hscan] at h

theorem Within.error {scan : Scan α} (h : Within text scan) {fault : ScanFault}
    (hscan : scan = .error fault) : fault.site <:+ text := by
  rwa [hscan] at h

theorem within_gather {step : List Char → Scan (Option (List Char))}
    {progress : ∀ {text piece rest}, step text = .ok (some piece, rest) →
      rest.length < text.length}
    (hstep : ∀ {text : List Char}, text <:+ whole → Within whole (step text))
    (h : text <:+ whole) : Within whole (gather step progress text) := by
  fun_induction gather step progress text with
  | case1 text fault hs => exact (hstep h).error hs
  | case2 text rest hs => exact (hstep h).ok hs
  | case3 text piece rest hs fault hg ih => exact (ih ((hstep h).ok hs)).error hg
  | case4 text piece rest hs pieces left hg ih => exact (ih ((hstep h).ok hs)).ok hg

/-! ### Escapes -/

theorem within_hexNumber (count : Nat) (what : String) (text : List Char) :
    Within text (hexNumber count what text) := by
  simp only [hexNumber]
  split
  · exact List.drop_suffix count text
  · exact List.suffix_rfl

theorem within_lowHalf (high : Nat) (text : List Char) : Within text (lowHalf high text) := by
  unfold lowHalf
  split
  · next digits =>
    have hdigits : digits <:+ '\\' :: 'u' :: digits := List.drop_suffix 2 ('\\' :: 'u' :: digits)
    have hhex := (within_hexNumber 4 "\\u" digits).mono hdigits
    split
    · next fault hf => exact hhex.error hf
    · next low rest hlow =>
      split <;> exact hhex.ok hlow
  · exact List.suffix_rfl

theorem within_unicodeEscape (text : List Char) : Within text (unicodeEscape text) := by
  unfold unicodeEscape
  split
  · next digits =>
    have hdigits : digits <:+ '\\' :: 'U' :: digits := List.drop_suffix 2 ('\\' :: 'U' :: digits)
    have hhex := (within_hexNumber 8 "\\U" digits).mono hdigits
    split
    · next fault hf => exact hhex.error hf
    · next n rest hn =>
      split <;> exact hhex.ok hn
  · next digits =>
    have hdigits : digits <:+ '\\' :: 'u' :: digits := List.drop_suffix 2 ('\\' :: 'u' :: digits)
    have hhex := (within_hexNumber 4 "\\u" digits).mono hdigits
    split
    · next fault hf => exact hhex.error hf
    · next n rest hn =>
      have hrest := hhex.ok hn
      split
      · exact hrest
      · split
        · exact (within_lowHalf n rest).mono hrest
        · exact hrest
  · exact List.suffix_rfl

theorem within_stringEscape (text : List Char) : Within text (stringEscape text) := by
  unfold stringEscape
  split
  · next c letter rest =>
    split
    · exact within_unicodeEscape _
    · split
      · exact List.drop_suffix 2 (c :: letter :: rest)
      · exact List.suffix_cons c (letter :: rest)
  · exact List.nil_suffix

theorem within_asPiece {scan : Scan Char} (h : Within text scan) : Within text (asPiece scan) := by
  cases scan with
  | error fault => exact h
  | ok result => exact h

/-! ### Identifiers, strings and names -/

/-- A missing end is reported at the opening, so that the text is looked at from there. -/
theorem within_iriStep {opening : List Char} (h : text <:+ opening) :
    Within opening (iriStep opening text) := by
  cases text with
  | nil => exact List.suffix_rfl
  | cons c rest =>
    have hrest : rest <:+ opening := (List.suffix_cons c rest).trans h
    simp only [iriStep]
    split
    · exact List.suffix_rfl
    split
    · exact hrest
    split
    · split
      · exact (within_asPiece (within_unicodeEscape (c :: rest))).mono h
      · exact h
    split
    · exact h
    · exact hrest

theorem within_iriRef (text : List Char) : Within text (iriRef text) := by
  unfold iriRef
  split
  · next rest =>
    exact @within_gather _ _ _ length_iriStep within_iriStep (List.suffix_cons '<' rest)
  · exact List.suffix_rfl

theorem within_stringStep {opening delimiter : List Char} (h : text <:+ opening) :
    Within opening (stringStep opening delimiter text) := by
  cases text with
  | nil => exact List.suffix_rfl
  | cons c rest =>
    simp only [stringStep]
    split
    · exact List.suffix_rfl
    split
    · exact (within_asPiece (within_stringEscape (c :: rest))).mono h
    split
    · exact (List.drop_suffix delimiter.length (c :: rest)).trans h
    · exact (List.suffix_cons c rest).trans h

theorem within_quotation (text : List Char) : Within text (quotation text) := by
  cases text with
  | nil => exact List.suffix_rfl
  | cons quote tail =>
    have hopened : (quote :: tail).drop (delimiterOf quote (quote :: tail)).length <:+
        quote :: tail := List.drop_suffix _ _
    have hgather : Within (quote :: tail)
        (gather (stringStep (quote :: tail) (delimiterOf quote (quote :: tail))) length_stringStep
          ((quote :: tail).drop (delimiterOf quote (quote :: tail)).length)) :=
      within_gather within_stringStep hopened
    simp only [quotation]
    split
    · next fault hf => exact hgather.error hf
    · next value rest hok => exact hgather.ok hok

theorem dotted_suffix (accept : Char → Bool) (text : List Char) : (dotted accept text).2 <:+ text :=
  ⟨_, dotted_append accept text⟩

theorem within_blankLabel (text : List Char) : Within text (blankLabel text) := by
  cases text with
  | nil => exact List.suffix_rfl
  | cons c rest =>
    simp only [blankLabel]
    split
    · exact (dotted_suffix isNameChar rest).trans (List.suffix_cons c rest)
    · exact List.suffix_rfl

theorem within_percentEscape (text : List Char) : Within text (percentEscape text) := by
  unfold percentEscape
  split
  · next c high low rest =>
    split
    · exact List.drop_suffix 3 (c :: high :: low :: rest)
    · exact List.suffix_rfl
  · exact List.suffix_rfl

theorem within_localEscape (text : List Char) : Within text (localEscape text) := by
  unfold localEscape
  split
  · next c escaped rest =>
    split
    · exact List.drop_suffix 2 (c :: escaped :: rest)
    · exact List.suffix_rfl
  · exact List.suffix_rfl

theorem within_localStep (text : List Char) : Within text (localStep text) := by
  cases text with
  | nil => exact List.suffix_rfl
  | cons c rest =>
    have hrest : rest <:+ c :: rest := List.suffix_cons c rest
    simp only [localStep]
    split
    · split
      · next fault hf => exact (within_percentEscape (c :: rest)).error hf
      · next hok => exact (within_percentEscape (c :: rest)).ok hok
    split
    · split
      · next fault hf => exact (within_localEscape (c :: rest)).error hf
      · next hok => exact (within_localEscape (c :: rest)).ok hok
    split
    · exact hrest
    split
    · exact hrest
    · exact List.suffix_rfl

theorem within_localPart (text : List Char) : Within text (localPart text) := by
  unfold localPart
  split
  · exact within_gather (fun h => (within_localStep _).mono h) List.suffix_rfl
  · exact List.suffix_rfl

theorem skipLayout_suffix (inComment : Bool) (text : List Char) :
    skipLayout inComment text <:+ text := by
  induction text generalizing inComment with
  | nil => exact List.suffix_rfl
  | cons c rest ih =>
    have hrest : rest <:+ c :: rest := List.suffix_cons c rest
    simp only [skipLayout]
    split
    · exact (ih _).trans hrest
    split
    · exact (ih _).trans hrest
    split
    · exact (ih _).trans hrest
    · exact List.suffix_rfl

end Scan

/-! ### Lexemes -/

namespace Lexeme

open Scan

/-- A word is reported with the at sign before it. -/
theorem within_scanAtWord (afterString : Bool) (rest : List Char) :
    Within ('@' :: rest) (scanAtWord afterString rest) := by
  have hrest : rest <:+ '@' :: rest := List.suffix_cons '@' rest
  simp only [scanAtWord]
  split
  · exact hrest
  · next word left hword =>
    have hleft : left <:+ '@' :: rest := .trans ⟨word, Pattern.exact_languageTag hword⟩ hrest
    split
    · exact hleft
    split
    · exact List.suffix_rfl
    split
    · exact hrest
    · exact hleft

theorem within_scanNumber (text : List Char) : Within text (scanNumber text) := by
  unfold scanNumber
  split
  · next found hfound =>
    obtain ⟨kind, -, hkind⟩ := List.exists_of_findSome?_eq_some hfound
    unfold scanNumberAs at hkind
    split at hkind
    · next taken rest htaken =>
      split at hkind
      · obtain rfl := Option.some.inj hkind
        exact ⟨taken, Pattern.exact_ofKind kind htaken⟩
      · simp at hkind
    · simp at hkind
  · exact List.suffix_rfl

theorem within_scanName (text : List Char) : Within text (scanName text) := by
  have hlabel : (scanLabel text).2 <:+ text := ⟨_, scanLabel_append text⟩
  simp only [scanName]
  split
  · next rest hrest =>
    rw [hrest] at hlabel
    have hrest : rest <:+ text := (List.suffix_cons ':' rest).trans hlabel
    split
    · exact hrest
    · split
      · next fault hf => exact ((within_localPart rest).mono hrest).error hf
      · next hok => exact ((within_localPart rest).mono hrest).ok hok
  · split
    · exact hlabel
    · exact List.suffix_rfl

theorem within_scan (afterString : Bool) (text : List Char) :
    Within text (scan afterString text) := by
  cases text with
  | nil => exact List.suffix_rfl
  | cons c rest =>
    have hrest : rest <:+ c :: rest := List.suffix_cons c rest
    simp only [scan]
    split
    · split
      · next fault hf => exact (within_iriRef (c :: rest)).error hf
      · next hok => exact (within_iriRef (c :: rest)).ok hok
    split
    · split
      · next fault hf => exact (within_quotation (c :: rest)).error hf
      · next hok => exact (within_quotation (c :: rest)).ok hok
    split
    · next hc => exact hc ▸ within_scanAtWord afterString rest
    split
    · split
      · next left => exact List.drop_suffix 2 (c :: '^' :: left)
      · exact List.suffix_rfl
    split
    · have htail : rest.tail <:+ c :: rest := (List.tail_suffix rest).trans hrest
      have hlabel := (within_blankLabel rest.tail).mono htail
      split
      · next fault hf => exact hlabel.error hf
      · next hok => exact hlabel.ok hok
    split
    · exact within_scanNumber (c :: rest)
    split
    · exact hrest
    split
    · exact within_scanName (c :: rest)
    · exact List.suffix_rfl

/-! ### The end of a text -/

theorem ne_eof_of_scanAtWord (h : scanAtWord afterString text = .ok (l, left)) : l ≠ .eof := by
  simp only [scanAtWord, fail] at h
  repeat' split at h
  all_goals simp only [reduceCtorEq, Except.ok.injEq, Prod.mk.injEq] at h
  all_goals simp [← h.1]

theorem ne_eof_of_scanNumber (h : scanNumber text = .ok (l, left)) : l ≠ .eof := by
  simp only [scanNumber] at h
  split at h
  · next hfound =>
    obtain rfl := Except.ok.inj h
    obtain ⟨kind, -, hkind⟩ := List.exists_of_findSome?_eq_some hfound
    simp only [scanNumberAs] at hkind
    repeat' split at hkind
    all_goals simp only [reduceCtorEq, Option.some.injEq, Prod.mk.injEq] at hkind
    simp [← hkind.1]
  · simp [fail] at h

theorem ne_eof_of_scanName (h : scanName text = .ok (l, left)) : l ≠ .eof := by
  simp only [scanName] at h
  repeat' split at h
  all_goals simp only [reduceCtorEq, Except.ok.injEq, Prod.mk.injEq] at h
  · simp [← h.1]
  · simp [← h.1]
  · next hkeyword =>
    simp only [keyword?] at hkeyword
    repeat' split at hkeyword
    all_goals simp only [reduceCtorEq, Option.some.injEq] at hkeyword
    all_goals simp [← h.1, ← hkeyword]

/-- Only the empty text has the lexeme for its end. -/
theorem ne_eof_of_scan (h : scan afterString (c :: text) = .ok (l, left)) : l ≠ .eof := by
  simp only [scan] at h
  split at h
  · split at h <;> first | simp [← (Prod.mk.inj (Except.ok.inj h)).1] | cases h
  split at h
  · split at h <;> first | simp [← (Prod.mk.inj (Except.ok.inj h)).1] | cases h
  split at h
  · exact ne_eof_of_scanAtWord h
  split at h
  · split at h <;> first | simp [← (Prod.mk.inj (Except.ok.inj h)).1] | cases h
  split at h
  · split at h <;> first | simp [← (Prod.mk.inj (Except.ok.inj h)).1] | cases h
  split at h
  · exact ne_eof_of_scanNumber h
  split at h
  · simp [← (Prod.mk.inj (Except.ok.inj h)).1]
  split at h
  · exact ne_eof_of_scanName h
  · cases h

end Lexeme

/-! ### Places -/

namespace Place

variable {text whole rest : List Char}

/-- The place where an end of a text begins. -/
def ofRest (text rest : List Char) : Place := ofOffset text (text.length - rest.length : Nat)

theorem ofRest_append (read rest : List Char) : ofRest (read ++ rest) rest = start.after read := by
  have hoffset : (read ++ rest).length - rest.length = read.length := by simp
  simp only [ofRest, hoffset]
  rw [ofOffset_of_le (by simp), List.take_left]

theorem upTo_ofRest (htext : text <:+ whole) (hrest : rest <:+ text) :
    (ofRest whole text).upTo text rest = ofRest whole rest := by
  obtain ⟨before, rfl⟩ := htext
  obtain ⟨read, rfl⟩ := hrest
  rw [ofRest_append, upTo_append, ← after_append, ← List.append_assoc, ofRest_append]

end Place

/-! ### Tokens -/

/-- The token has the place of an offset into a text, and its lexeme begins there. -/
def Token.StandsAt (token : Token) (text : List Char) (offset : Nat) : Prop :=
  offset ≤ text.length ∧ token.place = Place.ofOffset text offset ∧
    ∃ afterString left, Lexeme.scan afterString (text.drop offset) = .ok (token.lexeme, left)

/-- Tokens and fault stand in a text, and without a fault the tokens go up to its end. -/
structure Tokens.Located (text : List Char) (found : Tokens) : Prop where
  tokens : ∀ token ∈ found.tokens, ∃ offset, token.StandsAt text offset
  fault : ∀ error ∈ found.fault, ∃ offset ≤ text.length, error.place = Place.ofOffset text offset
  ends : found.fault = none → ∃ before last, found.tokens = before ++ [last] ∧ last.lexeme = .eof

namespace Token

variable {text whole rest left : List Char} {afterString : Bool} {lexeme : Lexeme}

theorem standsAt_ofRest (hrest : rest <:+ whole)
    (hscan : Lexeme.scan afterString rest = .ok (lexeme, left)) :
    StandsAt ⟨lexeme, Place.ofRest whole rest⟩ whole (whole.length - rest.length) := by
  obtain ⟨before, rfl⟩ := hrest
  refine ⟨Nat.sub_le _ _, rfl, afterString, left, ?_⟩
  have hoffset : (before ++ rest).length - rest.length = before.length := by simp
  rw [hoffset, List.drop_left]
  exact hscan

theorem located_scanFrom (afterString : Bool) (h : text <:+ whole) :
    (scanFrom (Place.ofRest whole text) afterString text).Located whole := by
  generalize hplace : Place.ofRest whole text = place
  fun_induction scanFrom place afterString text with
  | case1 place afterString text hskip =>
    have hnil : [] <:+ text := List.nil_suffix
    have hend : place.upTo text [] = Place.ofRest whole [] := by
      rw [← Place.upTo_ofRest h hnil, hplace]
    have hstands := @standsAt_ofRest whole [] [] afterString .eof (hnil.trans h) rfl
    rw [← hend] at hstands
    exact ⟨List.forall_mem_singleton.2 ⟨_, hstands⟩, by simp, fun _ => ⟨[], _, rfl, rfl⟩⟩
  | case2 place afterString text c rest hskip start fault hscan =>
    have hrest : c :: rest <:+ text := hskip ▸ Scan.skipLayout_suffix false text
    have hsite := (Lexeme.within_scan afterString (c :: rest)).error hscan
    have hstart : start = Place.ofRest whole (c :: rest) := by
      rw [← Place.upTo_ofRest h hrest, hplace]
    refine ⟨by simp, fun error he => ?_, by simp⟩
    obtain rfl := Option.some.inj he
    rw [hstart, Place.upTo_ofRest (hrest.trans h) hsite]
    exact ⟨_, Nat.sub_le _ _, rfl⟩
  | case3 place afterString text c rest hskip start lexeme left hscan later ih =>
    have hrest : c :: rest <:+ text := hskip ▸ Scan.skipLayout_suffix false text
    have hleft := (Lexeme.within_scan afterString (c :: rest)).ok hscan
    have hstart : start = Place.ofRest whole (c :: rest) := by
      rw [← Place.upTo_ofRest h hrest, hplace]
    have hnext : Place.ofRest whole left = start.upTo (c :: rest) left := by
      rw [hstart, Place.upTo_ofRest (hrest.trans h) hleft]
    have hlater : later.Located whole := ih (hleft.trans (hrest.trans h)) hnext
    have hstands := standsAt_ofRest (hrest.trans h) hscan
    rw [← hstart] at hstands
    refine ⟨List.forall_mem_cons.2 ⟨⟨_, hstands⟩, hlater.tokens⟩, hlater.fault, fun hfault => ?_⟩
    obtain ⟨before, last, hends, heof⟩ := hlater.ends hfault
    exact ⟨⟨lexeme, start⟩ :: before, last, by rw [hends]; rfl, heof⟩

theorem located_scanAll (text : String) : (scanAll text).Located text.toList := by
  have hstart : Place.ofRest text.toList text.toList = .start := by
    have hempty := Place.ofRest_append [] text.toList
    simpa [Place.after] using hempty
  have hlocated := @located_scanFrom text.toList text.toList false List.suffix_rfl
  rwa [hstart] at hlocated

/-- No token stands behind the one for the end of a text. -/
theorem eof_not_mem_scanFrom (place : Place) (afterString : Bool) (text : List Char)
    {before after : List Lexeme} {l : Lexeme}
    (h : (scanFrom place afterString text).tokens.map (·.lexeme) = before ++ l :: after) :
    .eof ∉ before := by
  fun_induction scanFrom place afterString text generalizing before with
  | case1 =>
    cases before with
    | nil => exact List.not_mem_nil
    | cons first before => simp at h
  | case2 => simp at h
  | case3 place afterString text c rest hskip start lexeme left hscan =>
    rename_i ih
    cases before with
    | nil => exact List.not_mem_nil
    | cons first before =>
      obtain ⟨rfl, hrest⟩ := List.cons.inj h
      exact List.not_mem_cons_of_ne_of_not_mem (Ne.symm (Lexeme.ne_eof_of_scan hscan)) (ih hrest)

end Token

end Rdf

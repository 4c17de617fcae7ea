import Rdf.Proofs.Token.Boundaries
import Rdf.Proofs.Token.Reading

/-!
Gaps between tokens.

A gap is a row of blanks and of comments that have their line ends. Gaps may come to stand in front
of tokens and behind them. `Spaced` says how a text changes by a gap at such a place, token by token
up to that place, and the lexemes of the text stay what they were.
-/

namespace Rdf

open Text Scan

/-! ### Layout -/

inductive Gap : List Char → Prop
  | nil : Gap []
  | blank {c : Char} {rest : List Char} (hc : isLayout c = true) (h : Gap rest) : Gap (c :: rest)
  | comment {body rest : List Char} {e : Char} (hbody : ∀ c ∈ body, endsLine c = false)
    (hend : endsLine e = true) (h : Gap rest) : Gap ('#' :: (body ++ e :: rest))

theorem not_mem_spacers_iff {c : Char} : c ∉ spacers ↔ isLayout c = false ∧ c ≠ '#' := by
  simp [spacers, isLayout, List.contains_eq_mem]

theorem skipLayout_of_not_mem {c : Char} (hc : c ∉ spacers) (rest : List Char) :
    skipLayout false (c :: rest) = c :: rest := by
  have hnot := not_mem_spacers_iff.1 hc
  simp [skipLayout, hnot]

theorem skipLayout_body {body : List Char} (hbody : ∀ c ∈ body, endsLine c = false) (e : Char)
    (rest : List Char) :
    skipLayout true (body ++ e :: rest) = skipLayout (!endsLine e) rest := by
  induction body with
  | nil => simp [skipLayout]
  | cons c body ih =>
    obtain ⟨hc, hbody⟩ := List.forall_mem_cons.1 hbody
    simp [skipLayout, hc, ih hbody]

theorem skipLayout_comment (text : List Char) :
    skipLayout false ('#' :: text) = skipLayout true text := by
  have hmark : isLayout '#' = false := by decide
  simp [skipLayout, hmark]

namespace Gap

variable {gap : List Char}

theorem skipLayout_append (h : Gap gap) (text : List Char) :
    skipLayout false (gap ++ text) = skipLayout false text := by
  induction h with
  | nil => rfl
  | blank hc _ ih => simpa [skipLayout, hc] using ih
  | comment hbody hend _ ih =>
    rw [List.cons_append, List.append_assoc, skipLayout_comment, List.cons_append,
      skipLayout_body hbody, hend]
    exact ih

theorem skipLayout_self (h : Gap gap) : skipLayout false gap = [] := by
  have hend := h.skipLayout_append []
  rwa [List.append_nil] at hend

/-- A gap that a comment goes on with ends with the comment or behind it. -/
theorem skipLayout_true (h : Gap gap) : skipLayout true gap = [] := by
  induction h with
  | nil => rfl
  | @blank c rest hc h ih =>
    rw [skipLayout, if_pos rfl]
    cases hend : endsLine c with
    | false => exact ih
    | true => exact h.skipLayout_self
  | @comment body rest e hbody hend h ih =>
    have hmark : endsLine '#' = false := by decide
    rw [skipLayout, if_pos rfl, hmark, Bool.not_false, skipLayout_body hbody, hend]
    exact h.skipLayout_self

/-- Behind a text that ends in layout, or in a comment, a gap is layout. -/
theorem skipLayout_end (h : Gap gap) {inComment : Bool} {text : List Char}
    (htext : skipLayout inComment text = []) : skipLayout inComment (text ++ gap) = [] := by
  induction text generalizing inComment with
  | nil =>
    cases inComment with
    | false => exact h.skipLayout_self
    | true => exact h.skipLayout_true
  | cons c text ih =>
    simp only [List.cons_append, skipLayout] at htext ⊢
    split at htext
    · next hin => rw [if_pos hin, ih htext]
    next hin =>
    rw [if_neg hin]
    split at htext
    · next hc => rw [if_pos hc, ih htext]
    next hc =>
    rw [if_neg hc]
    split at htext
    · next hmark => rw [if_pos hmark, ih htext]
    · cases htext

theorem eq_nil_or_head (h : Gap gap) : gap = [] ∨ ∃ c ∈ spacers, ∃ rest, gap = c :: rest := by
  cases h with
  | nil => exact .inl rfl
  | @blank c rest hc _ =>
    exact .inr ⟨c, List.mem_append_left _ (List.contains_iff_mem.1 hc), rest, rfl⟩
  | comment => exact .inr ⟨'#', by decide, _, rfl⟩

theorem of_body {before : List Char} {c : Char} (hc : endsLine c = false)
    (h : Gap ('#' :: before)) : Gap ('#' :: c :: before) := by
  generalize hwhole : '#' :: before = whole at h
  cases h with
  | nil => cases hwhole
  | blank hlayout =>
    obtain rfl := (List.cons.inj hwhole).1
    exact absurd hlayout (by decide)
  | @comment body rest e hbody hend h =>
    obtain rfl := (List.cons.inj hwhole).2
    exact .comment (List.forall_mem_cons.2 ⟨hc, hbody⟩) hend h

end Gap

/-- What is skipped in front of a token is a gap, or the rest of one whose comment has begun. -/
theorem gap_of_skipLayout {inComment : Bool} {text rest : List Char} {c : Char}
    (h : skipLayout inComment text = c :: rest) :
    c ∉ spacers ∧ ∃ before, text = before ++ c :: rest ∧
      Gap (if inComment then '#' :: before else before) := by
  induction text generalizing inComment with
  | nil => cases h
  | cons d text ih =>
    simp only [skipLayout] at h
    cases inComment with
    | true =>
      obtain ⟨hc, before, rfl, hgap⟩ := ih h
      refine ⟨hc, d :: before, rfl, ?_⟩
      cases hend : endsLine d with
      | true =>
        rw [hend] at hgap
        exact @Gap.comment [] before d (by simp) hend hgap
      | false =>
        rw [hend] at hgap
        exact hgap.of_body hend
    | false =>
      rw [if_neg Bool.false_ne_true] at h
      split at h
      · next hd =>
        obtain ⟨hc, before, rfl, hgap⟩ := ih h
        exact ⟨hc, d :: before, rfl, .blank hd hgap⟩
      split at h
      · next hd =>
        obtain ⟨hc, before, rfl, hgap⟩ := ih h
        exact ⟨hc, d :: before, rfl, hd ▸ hgap⟩
      · next hlayout hmark =>
        obtain ⟨rfl, rfl⟩ := List.cons.inj h
        exact ⟨not_mem_spacers_iff.2 ⟨by simpa using hlayout, hmark⟩, [], rfl, .nil⟩

/-! ### Gaps in a text -/

/-- The second text is the first one, which stands behind a string or not, with a gap: here, in
front of the next token or of the end, or behind one of the tokens. -/
inductive Spaced (gap : List Char) : Bool → List Char → List Char → Prop
  | here (afterString : Bool) (text : List Char) : Spaced gap afterString text (gap ++ text)
  | before {afterString : Bool} {lay rest : List Char} {c : Char} (hlay : Gap lay)
    (hc : c ∉ spacers) :
    Spaced gap afterString (lay ++ c :: rest) (lay ++ (gap ++ c :: rest))
  | atEnd {afterString : Bool} {text : List Char} (h : skipLayout false text = []) :
    Spaced gap afterString text (text ++ gap)
  | later {afterString : Bool} {lay more left left' : List Char} {c : Char} {l : Lexeme}
    (hlay : Gap lay) (hc : c ∉ spacers)
    (hscan : Lexeme.scan afterString (c :: (more ++ left)) = .ok (l, left))
    (h : Spaced gap l.isString left left') :
    Spaced gap afterString (lay ++ c :: (more ++ left)) (lay ++ c :: (more ++ left'))

namespace Spaced

variable {gap text text' rest : List Char} {afterString : Bool} {c : Char}

theorem eq_of_nil (h : Spaced [] afterString text text') : text' = text := by
  induction h with
  | here => rfl
  | before => rfl
  | atEnd => exact List.append_nil _
  | later _ _ _ _ ih => rw [ih]

theorem opens (hgap : Gap gap) (hne : gap ≠ []) (h : Spaced gap afterString text text') :
    Opens text text' := by
  obtain ⟨c, hc, more, rfl⟩ := hgap.eq_nil_or_head.resolve_left hne
  induction h with
  | here => exact .here hc _
  | @before _ lay => exact .append lay (.here hc _)
  | @atEnd _ text =>
    have hopens := Opens.append text (Opens.here hc more : Opens [] _)
    rwa [List.append_nil] at hopens
  | @later _ lay more left left' d _ _ _ _ _ ih => exact .append lay (.cons d (.append more ih))

/-- A text that begins with a token has the gap in front of it or behind a token. -/
theorem of_cons (hc : c ∉ spacers) (h : Spaced gap afterString (c :: rest) text') :
    text' = gap ++ c :: rest ∨ ∃ more left left' l, rest = more ++ left ∧
      text' = c :: (more ++ left') ∧ Lexeme.scan afterString (c :: rest) = .ok (l, left) ∧
      Spaced gap l.isString left left' := by
  have hnil : ∀ {lay rest' : List Char} {d : Char}, Gap lay → d ∉ spacers →
      lay ++ d :: rest' = c :: rest → lay = [] := by
    intro lay rest' d hlay hd he
    obtain hnil | ⟨e, hmem, more, rfl⟩ := hlay.eq_nil_or_head
    · exact hnil
    · exact absurd ((List.cons.inj he).1 ▸ hmem) hc
  generalize hwhole : c :: rest = whole at h
  cases h with
  | here => exact .inl rfl
  | before hlay hd =>
    obtain rfl := hnil hlay hd hwhole.symm
    exact .inl rfl
  | atEnd he =>
    rw [← hwhole, skipLayout_of_not_mem hc] at he
    cases he
  | @later _ lay more left left' d l hlay hd hscan h =>
    obtain rfl := hnil hlay hd hwhole.symm
    obtain ⟨rfl, rfl⟩ := List.cons.inj hwhole
    exact .inr ⟨more, left, left', l, rfl, rfl, hscan, h⟩

end Spaced

/-! ### Lexemes with gaps between them -/

/-- A text that begins with a token reads as that token first. -/
theorem Lexes.of_cons {afterString : Bool} {c : Char} {rest : List Char} {lexemes : List Lexeme}
    (hc : c ∉ spacers) (h : Lexes afterString (c :: rest) lexemes) :
    ∃ l left later, Lexeme.scan afterString (c :: rest) = .ok (l, left) ∧
      lexemes = l :: later ∧ Lexes l.isString left later := by
  cases h with
  | eof hskip =>
    rw [skipLayout_of_not_mem hc] at hskip
    cases hskip
  | cons hskip hscan hlater =>
    rw [skipLayout_of_not_mem hc] at hskip
    exact ⟨_, _, _, hskip ▸ hscan, rfl, hlater⟩

namespace Lexeme

open Pattern

variable {gap taken left left' : List Char} {afterString : Bool} {l : Lexeme} {later : List Lexeme}

theorem ofList_cons_ne {c d : Char} (h : c ≠ d) (rest word : List Char) :
    String.ofList (c :: rest) ≠ String.ofList (d :: word) := by
  intro he
  have hlists := congrArg String.toList he
  rw [String.toList_ofList, String.toList_ofList] at hlists
  exact h (List.cons.inj hlists).1

/-- Words without a colon begin with a letter of `a`, `true`, `false`, `PREFIX` or `BASE`. -/
theorem keyword?_eq_none {c d : Char} {upper : List Char} (hupper : upperChar c = d :: upper)
    (hd : d ∉ ['P', 'B']) (hc : c ∉ ['a', 't', 'f']) (label : List Char) :
    keyword? (c :: label) = none := by
  have hwhole : upperCase (c :: label) = d :: (upper ++ upperCase label) := by
    simp [upperCase, hupper]
  simp only [List.mem_cons, List.not_mem_nil, or_false, not_or] at hc hd
  have ha := ofList_cons_ne hc.1 label []
  have htrue := ofList_cons_ne hc.2.1 label ['r', 'u', 'e']
  have hfalse := ofList_cons_ne hc.2.2 label ['a', 'l', 's', 'e']
  simp only [keyword?, hwhole]
  rw [if_neg ha, if_neg (not_or.2 ⟨htrue, hfalse⟩)]
  split
  · next hprefix => exact absurd hprefix (ofList_cons_ne hd.1 _ ['R', 'E', 'F', 'I', 'X'])
  · next hbase => exact absurd hbase (ofList_cons_ne hd.2 _ ['A', 'S', 'E'])
  · rfl

/-- What begins as no word does goes on up to a colon. -/
theorem name_of_scanName {c : Char} {rest : List Char}
    (hword : ∀ label, keyword? (c :: label) = none) (h : scanName (c :: rest) = .ok (l, left)) :
    ∃ label value more, scanLabel (c :: rest) = (label, ':' :: (more ++ left)) ∧
      l = .name (String.ofList label) value := by
  obtain ⟨label, behind, hlabel, ⟨rfl, -, rfl⟩ | ⟨behind, value, rfl, -, hvalue, rfl⟩ |
    ⟨rfl, -, hkeyword⟩⟩ := scanName_eq_ok_iff.1 h
  · exact ⟨label, "", [], hlabel, rfl⟩
  · obtain ⟨more, rfl⟩ := (within_localPart behind).ok hvalue
    exact ⟨label, _, more, hlabel, rfl⟩
  · have happend := scanLabel_append (c :: rest)
    rw [hlabel] at happend
    cases label with
    | nil => cases hkeyword
    | cons d label =>
      obtain ⟨rfl, -⟩ := List.cons.inj happend
      rw [hword] at hkeyword
      cases hkeyword

/-- What begins as an exponent does goes on up to a colon. -/
theorem colon_of_exponent {c : Char} {rest : List Char} (hc : isExponentMark c = true)
    (h : scanName (c :: rest) = .ok (l, left)) :
    ∃ label more, scanLabel (c :: rest) = (label, ':' :: (more ++ left)) := by
  have hmark : c = 'e' ∨ c = 'E' := by simpa [isExponentMark] using hc
  have hword : ∀ label, keyword? (c :: label) = none := by
    obtain rfl | rfl := hmark <;> exact keyword?_eq_none rfl (by decide) (by decide)
  obtain ⟨label, value, more, hlabel, -⟩ := name_of_scanName hword h
  exact ⟨label, more, hlabel⟩

theorem startsNumber_of_scanNumber {text : List Char} {found : Lexeme × List Char}
    (h : scanNumber text = .ok found) : startsNumber text = true := by
  have hkind : ∀ {n : NumberKind}, scanNumberAs n text = some found → startsNumber text = true := by
    intro n hn
    obtain ⟨taken, htaken, -⟩ := scanNumberAs_eq_some_iff.1 hn
    exact startsNumber_ofKind htaken
  obtain h | ⟨-, h | ⟨-, h⟩⟩ := scanNumber_eq_ok_iff.1 h
  · exact hkind h
  · exact hkind h
  · exact hkind h

theorem scan_of_startsNumber {text : List Char} (h : startsNumber text = true)
    (afterString : Bool) : scan afterString text = scanNumber text := by
  cases text with
  | nil => cases h
  | cons c rest => exact (scan_number h afterString).2.2

/-- Behind a point that belongs to no number, a gap leaves a word that begins as an exponent does
up to its colon. -/
theorem colon_of_spaced {more more' : List Char} (hgap : Gap gap) (hne : gap ≠ [])
    (h : Spaced gap afterString ('.' :: more) ('.' :: more'))
    (hhead : more'.head?.any isExponentMark = true) :
    ∃ label rest rest', more = label ++ ':' :: rest ∧ more' = label ++ ':' :: rest' := by
  obtain ⟨g, hg, behind, rfl⟩ := hgap.eq_nil_or_head.resolve_left hne
  obtain ⟨c, rest', rfl⟩ : ∃ c rest', more' = c :: rest' := by
    cases more' with
    | nil => cases hhead
    | cons c rest' => exact ⟨c, rest', rfl⟩
  have hmark : isExponentMark c = true := by simpa using hhead
  have hc : c = 'e' ∨ c = 'E' := by simpa [isExponentMark] using hmark
  have hword : c ∉ spacers ∧ isNameBase c = true ∧ isDigit c = false := by
    obtain rfl | rfl := hc <;> decide
  obtain ⟨rest, rfl, -⟩ : ∃ rest, more = c :: rest ∧ Opens rest rest' := by
    obtain ⟨before, hbefore, hopens⟩ := (h.opens hgap hne).of_cons (by decide)
    obtain rfl := (List.cons.inj hbefore).2
    exact hopens.of_cons hword.1
  have hpoint : ∀ b, scan b ('.' :: c :: rest) = .ok (.punct .dot, c :: rest) := by
    have hdot : isDigit '.' = false := by decide
    intro b
    simp [scan, startsNumber, hdot, hword.2.2, Punct.ofChar?]
  obtain he | ⟨taken, left, left', l, hleft, he, hscan, hbehind⟩ := h.of_cons (by decide)
  · exact absurd ((List.cons.inj he).1 ▸ hg) (by decide)
  rw [hpoint] at hscan
  obtain ⟨rfl, rfl⟩ := Prod.mk.inj (Except.ok.inj hscan)
  obtain rfl : taken = [] := by simpa using hleft
  obtain rfl := (List.cons.inj he).2
  obtain he | ⟨taken, left, left', l, rfl, he, hscan, -⟩ := hbehind.of_cons hword.1
  · exact absurd ((List.cons.inj he).1 ▸ hg) hword.1
  rw [(scan_name (.inr hword.2.1) _ _).2.2] at hscan
  obtain ⟨label, more, hlabel⟩ := colon_of_exponent hmark hscan
  have hsplit := scanLabel_append (c :: (taken ++ left))
  rw [hlabel, eq_comm] at hsplit
  refine ⟨label, more ++ left, more ++ left', hsplit, ?_⟩
  have htaken : (c :: taken) ++ left = (label ++ ':' :: more) ++ left := by simpa using hsplit
  have hsame := congrArg (· ++ left') (List.append_cancel_right htaken)
  simpa [he] using hsame

/-- A lexeme is read the same whatever stands behind the spacer, if a word behind a point is one
that goes up to a colon. -/
theorem scan_opens_of_lexes (hopens : Opens left left') (htaken : taken ≠ [])
    (hscan : scan afterString (taken ++ left) = .ok (l, left))
    (hlater : Lexes l.isString left later)
    (hmark : ∀ {more more'}, left = '.' :: more → left' = '.' :: more' →
      more'.head?.any isExponentMark = true →
      ∃ label rest rest', more = label ++ ':' :: rest ∧ more' = label ++ ':' :: rest') :
    scan afterString (taken ++ left') = .ok (l, left') := by
  cases hnumber : startsNumber (taken ++ left) with
  | false => exact scan_opens hopens htaken hnumber hscan
  | true =>
    rw [scan_of_startsNumber hnumber] at hscan
    have hscan' := scanNumber_opens hopens (fun {more} hleft hdigit => ?_) hmark hscan
    · rwa [scan_of_startsNumber (startsNumber_of_scanNumber hscan')]
    · subst hleft
      obtain ⟨l2, left2, -, hpoint, -⟩ := hlater.of_cons (by decide)
      have hstarts : startsNumber ('.' :: more) = true := by simp [startsNumber, hdigit]
      rw [scan_of_startsNumber hstarts] at hpoint
      exact ⟨_, hpoint⟩

/-- A lexeme is read the same when a gap comes to stand somewhere behind it. -/
theorem scan_spaced (hgap : Gap gap) (htaken : taken ≠ [])
    (hscan : scan afterString (taken ++ left) = .ok (l, left))
    (hlater : Lexes l.isString left later) (h : Spaced gap l.isString left left') :
    scan afterString (taken ++ left') = .ok (l, left') := by
  by_cases hnil : gap = []
  · subst hnil
    rwa [h.eq_of_nil]
  refine scan_opens_of_lexes (h.opens hgap hnil) htaken hscan hlater fun hleft hleft' hhead => ?_
  subst hleft hleft'
  exact colon_of_spaced hgap hnil h hhead

end Lexeme

namespace Lexes

variable {gap text text' : List Char} {afterString : Bool} {lexemes : List Lexeme}

/-- A text with a gap more reads as the same lexemes. -/
theorem spaced (hgap : Gap gap) (hs : Spaced gap afterString text text')
    (h : Lexes afterString text lexemes) : Lexes afterString text' lexemes := by
  induction hs generalizing lexemes with
  | here => exact h.of_skipLayout (hgap.skipLayout_append _)
  | before hlay hc =>
    apply h.of_skipLayout
    rw [hlay.skipLayout_append, hgap.skipLayout_append, hlay.skipLayout_append]
  | atEnd hend => exact h.of_skipLayout (by rw [hgap.skipLayout_end hend, hend])
  | @later afterString lay more left left' c l hlay hc hscan hbehind ih =>
    have hskip : ∀ rest, skipLayout false (lay ++ c :: rest) = c :: rest := fun rest => by
      rw [hlay.skipLayout_append, skipLayout_of_not_mem hc]
    obtain ⟨l2, left2, later, hscan2, rfl, hlater⟩ :=
      (h.of_skipLayout ((skipLayout_of_not_mem hc _).trans (hskip _).symm)).of_cons hc
    rw [hscan] at hscan2
    obtain ⟨rfl, rfl⟩ := Prod.mk.inj (Except.ok.inj hscan2)
    have hscan' := @Lexeme.scan_spaced gap (c :: more) left left' _ l _ hgap nofun hscan hlater
      hbehind
    exact .cons (hskip _) hscan' (ih hlater)

end Lexes

/-! ### Where tokens stand -/

namespace Token

/-- Where the tokens of a text begin and where they end, as numbers of characters before. The text
stands behind some characters, and behind a string or not. The last token is the end of the text. -/
def spansFrom (offset : Nat) (afterString : Bool) (text : List Char) : List (Nat × Nat) :=
  match _hrest : skipLayout false text with
  | [] => [(offset + text.length, offset + text.length)]
  | c :: rest =>
    match _hscan : Lexeme.scan afterString (c :: rest) with
    | .error _ => []
    | .ok (lexeme, left) =>
      let start := offset + (text.length - (c :: rest).length)
      let stop := offset + (text.length - left.length)
      (start, stop) :: spansFrom stop lexeme.isString left
termination_by text.length
decreasing_by
  have hskip := length_skipLayout false text
  rw [_hrest] at hskip
  exact Nat.lt_of_lt_of_le (Lexeme.length_scan _hscan) hskip

def spans (text : String) : List (Nat × Nat) := spansFrom 0 false text.toList

variable {gap text rest left : List Char} {c : Char} {l : Lexeme} {afterString : Bool}
  {lexemes : List Lexeme} {offset n : Nat}

theorem spansFrom_of_nil (hskip : skipLayout false text = []) :
    spansFrom offset afterString text = [(offset + text.length, offset + text.length)] := by
  rw [spansFrom]
  split <;> simp_all

theorem spansFrom_of_error {fault : ScanFault} (hskip : skipLayout false text = c :: rest)
    (hscan : Lexeme.scan afterString (c :: rest) = .error fault) :
    spansFrom offset afterString text = [] := by
  rw [spansFrom]
  split
  · simp_all
  · next hc =>
    rw [hskip] at hc
    obtain ⟨rfl, rfl⟩ := List.cons.inj hc
    split <;> simp_all

theorem spansFrom_of_ok (hskip : skipLayout false text = c :: rest)
    (hscan : Lexeme.scan afterString (c :: rest) = .ok (l, left)) :
    spansFrom offset afterString text =
      (offset + (text.length - (c :: rest).length), offset + (text.length - left.length)) ::
        spansFrom (offset + (text.length - left.length)) l.isString left := by
  rw [spansFrom]
  split
  · simp_all
  · next hc =>
    rw [hskip] at hc
    obtain ⟨rfl, rfl⟩ := List.cons.inj hc
    split
    · simp_all
    · next hs =>
      rw [hscan] at hs
      obtain ⟨rfl, rfl⟩ := Prod.mk.inj (Except.ok.inj hs)
      rfl

/-- The spans begin at the places of the tokens. -/
theorem places_scanFrom {whole : List Char} (afterString : Bool) (h : text <:+ whole) :
    (scanFrom (Place.ofRest whole text) afterString text).tokens.map (·.place) =
      (spansFrom (whole.length - text.length) afterString text).map
        fun span => Place.ofOffset whole span.1 := by
  generalize hplace : Place.ofRest whole text = place
  fun_induction scanFrom place afterString text with
  | case1 place afterString text hskip =>
    have hend : place.upTo text [] = Place.ofRest whole [] := by
      rw [← Place.upTo_ofRest h List.nil_suffix, hplace]
    have hlength := h.length_le
    have hoffset : whole.length - text.length + text.length = whole.length := by omega
    simp [spansFrom_of_nil hskip, hend, Place.ofRest, hoffset]
  | case2 place afterString text c rest hskip start fault hscan =>
    simp [spansFrom_of_error hskip hscan]
  | case3 place afterString text c rest hskip start lexeme left hscan later ih =>
    have hrest : c :: rest <:+ text := hskip ▸ skipLayout_suffix false text
    have hleft := (Lexeme.within_scan afterString (c :: rest)).ok hscan
    have hstart : start = Place.ofRest whole (c :: rest) := by
      rw [← Place.upTo_ofRest h hrest, hplace]
    have hnext : Place.ofRest whole left = start.upTo (c :: rest) left := by
      rw [hstart, Place.upTo_ofRest (hrest.trans h) hleft]
    have hoffset : ∀ {part : List Char}, part <:+ text →
        whole.length - text.length + (text.length - part.length) = whole.length - part.length := by
      intro part hpart
      have hlength := h.length_le
      have hpartLength := hpart.length_le
      omega
    rw [spansFrom_of_ok hskip hscan, hoffset hrest, hoffset (hleft.trans hrest), List.map_cons,
      List.map_cons, ih (hleft.trans (hrest.trans h)) hnext, hstart]
    rfl

/-- A text that begins with a token is a gap, the token and what is left; and so are its spans. -/
theorem exists_spansFrom (hskip : skipLayout false text = c :: rest)
    (hscan : Lexeme.scan afterString (c :: rest) = .ok (l, left)) :
    ∃ lay more, Gap lay ∧ c ∉ spacers ∧ rest = more ++ left ∧ text = lay ++ c :: (more ++ left) ∧
      ∀ offset, spansFrom offset afterString text =
        (offset + lay.length, offset + (lay ++ c :: more).length) ::
          spansFrom (offset + (lay ++ c :: more).length) l.isString left := by
  obtain ⟨hc, lay, rfl, hlay⟩ := gap_of_skipLayout hskip
  obtain ⟨taken, hsplit⟩ := (Lexeme.within_scan afterString (c :: rest)).ok hscan
  have hlength := Lexeme.length_scan hscan
  obtain ⟨more, rfl⟩ : ∃ more, taken = c :: more := by
    cases taken with
    | nil => simp [← hsplit] at hlength
    | cons d more => exact ⟨more, by rw [(List.cons.inj hsplit).1]⟩
  obtain rfl : more ++ left = rest := (List.cons.inj hsplit).2
  have hstart : (lay ++ c :: (more ++ left)).length - (c :: (more ++ left)).length =
      lay.length := by simp
  have hstop : (lay ++ c :: (more ++ left)).length - left.length = (lay ++ c :: more).length := by
    rw [show lay ++ c :: (more ++ left) = (lay ++ c :: more) ++ left by simp, List.length_append,
      Nat.add_sub_cancel]
  refine ⟨lay, more, hlay, hc, rfl, rfl, fun offset => ?_⟩
  rw [spansFrom_of_ok hskip hscan, hstart, hstop]

/-- At the beginning or the end of a token, a gap stands in the text as it may. -/
theorem spaced_of_mem_spansFrom {span : Nat × Nat}
    (hspan : span ∈ spansFrom offset afterString text) (hn : n = span.1 ∨ n = span.2)
    (h : Lexes afterString text lexemes) : ∃ k, n = offset + k ∧
      Spaced gap afterString text (text.take k ++ (gap ++ text.drop k)) := by
  induction h generalizing offset with
  | @eof afterString text hskip =>
    rw [spansFrom_of_nil hskip, List.mem_singleton] at hspan
    subst hspan
    refine ⟨text.length, by simpa using hn, ?_⟩
    simpa using Spaced.atEnd hskip
  | @cons afterString text rest left c l later hskip hscan _ ih =>
    obtain ⟨lay, more, hlay, hc, rfl, rfl, hspans⟩ := exists_spansFrom hskip hscan
    have hread : lay ++ c :: (more ++ left) = (lay ++ c :: more) ++ left := by simp
    rw [hspans, List.mem_cons] at hspan
    -- what stands behind the token is spaced as it is from there on
    have hbehind : ∀ k, Spaced gap l.isString left (left.take k ++ (gap ++ left.drop k)) →
        Spaced gap afterString (lay ++ c :: (more ++ left))
          ((lay ++ c :: (more ++ left)).take ((lay ++ c :: more).length + k) ++
            (gap ++ (lay ++ c :: (more ++ left)).drop ((lay ++ c :: more).length + k))) := by
      intro k hspaced
      rw [hread, List.take_length_add_append, List.drop_length_add_append]
      simpa using Spaced.later hlay hc hscan hspaced
    obtain rfl | hspan := hspan
    · obtain rfl | rfl := hn
      · refine ⟨lay.length, rfl, ?_⟩
        rw [List.take_left, List.drop_left]
        exact .before hlay hc
      · exact ⟨_, rfl, hbehind 0 (.here l.isString left)⟩
    · obtain ⟨k, rfl, hspaced⟩ := ih hspan
      exact ⟨(lay ++ c :: more).length + k, Nat.add_assoc _ _ _, hbehind k hspaced⟩

end Token

end Rdf

import Rdf.Proofs.Token.LineEnds

/-!
Texts that are joined by a line feed.

A text that reads as a row of lexemes reads as the same row in front of a line feed and whatever
comes behind it, which then reads as it does by itself, some lines further down.
-/

namespace Rdf

open Text Scan

/-! ### Places further down -/

namespace Place

variable {place : Place} {lines : Int}

def down (lines : Int) (place : Place) : Place := ⟨place.line + lines, place.column⟩

theorem next_down (c : Char) : (place.down lines).next c = (place.next c).down lines := by
  unfold next down
  split
  · exact congrArg (Place.mk · 1) (Int.add_right_comm place.line lines 1)
  · rfl

theorem upTo_down (text rest : List Char) :
    (place.down lines).upTo text rest = (place.upTo text rest).down lines := by
  induction text generalizing place with
  | nil => rfl
  | cons c text ih =>
    rw [upTo, upTo, next_down, ih]
    split <;> rfl

theorem line_after (place : Place) (text : List Char) :
    (place.after text).line = place.line + text.count '\n' := by
  induction text generalizing place with
  | nil => simp [after]
  | cons c text ih =>
    have hnext : (place.next c).line = place.line + if c = '\n' then 1 else 0 := by
      unfold next
      split <;> simp
    rw [after, List.foldl_cons, ← after, ih, hnext, List.count_cons]
    by_cases hc : c = '\n' <;> simp [hc] <;> omega

/-- A line feed leads to the start of a line, as many lines down as there are line feeds. -/
theorem after_feed (text : List Char) :
    start.after (text ++ ['\n']) = start.down (1 + text.count '\n') := by
  have hline := line_after start text
  rw [after_append]
  show (start.after text).next '\n' = _
  rw [next, if_pos rfl, hline, down]
  exact congrArg (Place.mk · 1) (by omega)

end Place

def Token.down (lines : Int) (token : Token) : Token :=
  { token with place := token.place.down lines }

def LexicalError.down (lines : Int) (error : LexicalError) : LexicalError :=
  { error with place := error.place.down lines }

def Tokens.down (lines : Int) (found : Tokens) : Tokens :=
  ⟨found.tokens.map (Token.down lines), found.fault.map (LexicalError.down lines)⟩

/-! ### One lexeme after another -/

namespace Token

/-- Further down, a text has the same tokens further down. -/
theorem scanFrom_down (lines : Int) (place : Place) (afterString : Bool) (text : List Char) :
    scanFrom (place.down lines) afterString text =
      (scanFrom place afterString text).down lines := by
  fun_induction scanFrom place afterString text with
  | case1 place afterString text hskip =>
    rw [scanFrom_of_nil hskip, Place.upTo_down]
    rfl
  | case2 place afterString text c rest hskip start fault hscan =>
    rw [scanFrom_of_error hskip hscan, Place.upTo_down, Place.upTo_down]
    rfl
  | case3 place afterString text c rest hskip start lexeme left hscan later ih =>
    rw [scanFrom_of_ok hskip hscan]
    simp only [Place.upTo_down]
    rw [ih]
    rfl

/-- Behind layout a text has the tokens that it has by itself. -/
theorem scanFrom_append {lay : List Char} (hlay : ∀ more, skipLayout false (lay ++ more) =
    skipLayout false more) (place : Place) (afterString : Bool) (text : List Char) :
    scanFrom place afterString (lay ++ text) = scanFrom (place.after lay) afterString text := by
  have hplace : ∀ {rest}, rest <:+ text →
      place.upTo (lay ++ text) rest = (place.after lay).upTo text rest := by
    rintro rest ⟨before, rfl⟩
    rw [← List.append_assoc, Place.upTo_append, Place.upTo_append, Place.after_append]
  have hrest := skipLayout_suffix false text
  cases hskip : skipLayout false text with
  | nil =>
    rw [scanFrom_of_nil ((hlay text).trans hskip), scanFrom_of_nil hskip,
      hplace List.nil_suffix]
  | cons c rest =>
    rw [hskip] at hrest
    cases hscan : Lexeme.scan afterString (c :: rest) with
    | error fault =>
      rw [scanFrom_of_error ((hlay text).trans hskip) hscan, scanFrom_of_error hskip hscan,
        hplace hrest]
    | ok result =>
      rw [scanFrom_of_ok ((hlay text).trans hskip) hscan, scanFrom_of_ok hskip hscan,
        hplace hrest]

end Token

/-! ### Line feeds -/

namespace Scan

theorem skipLayout_feed {inComment : Bool} {text : List Char} (h : skipLayout inComment text = [])
    (more : List Char) : skipLayout inComment (text ++ '\n' :: more) = skipLayout false more := by
  induction text generalizing inComment with
  | nil => cases inComment <;> rfl
  | cons c text ih =>
    simp only [List.cons_append, skipLayout] at h ⊢
    split at h
    · next hin => rw [if_pos hin, ih h]
    next hin =>
    rw [if_neg hin]
    split at h
    · next hc => rw [if_pos hc, ih h]
    next hc =>
    rw [if_neg hc]
    split at h
    · next hmark => rw [if_pos hmark, ih h]
    · cases h

theorem skipLayout_append_of_cons {inComment : Bool} {text rest : List Char} {c : Char}
    (h : skipLayout inComment text = c :: rest) (more : List Char) :
    skipLayout inComment (text ++ more) = c :: (rest ++ more) := by
  induction text generalizing inComment with
  | nil => cases h
  | cons d text ih =>
    simp only [List.cons_append, skipLayout] at h ⊢
    split at h
    · next hin => rw [if_pos hin, ih h]
    next hin =>
    rw [if_neg hin]
    split at h
    · next hd => rw [if_pos hd, ih h]
    next hd =>
    rw [if_neg hd]
    split at h
    · next hmark => rw [if_pos hmark, ih h]
    next hmark =>
      obtain ⟨rfl, rfl⟩ := List.cons.inj h
      rw [if_neg hmark]

end Scan

/-- Behind layout and a lexeme, what is left of a text has the tokens that it has by itself. -/
theorem Token.scanFrom_split {lay taken left : List Char} {c : Char} {afterString : Bool}
    {l : Lexeme} (hskip : skipLayout false (lay ++ c :: (taken ++ left)) = c :: (taken ++ left))
    (hscan : Lexeme.scan afterString (c :: (taken ++ left)) = .ok (l, left)) (place : Place) :
    scanFrom place afterString (lay ++ c :: (taken ++ left)) =
      let later := scanFrom (place.after (lay ++ c :: taken)) l.isString left
      ⟨⟨l, place.after lay⟩ :: later.tokens, later.fault⟩ := by
  have hnext : (place.after lay).upTo ((c :: taken) ++ left) left =
      place.after (lay ++ c :: taken) := by
    rw [Place.upTo_append, Place.after_append]
  rw [scanFrom_of_ok hskip hscan, Place.upTo_append]
  simp only [← List.cons_append, hnext]

/-- A lexeme is read the same when a line feed comes to stand behind the text. -/
theorem Lexeme.scan_feed {afterString : Bool} {taken left : List Char} {l : Lexeme}
    {later : List Lexeme} (htaken : taken ≠ [])
    (hscan : Lexeme.scan afterString (taken ++ left) = .ok (l, left))
    (hlater : Lexes l.isString left later) (more : List Char) :
    Lexeme.scan afterString (taken ++ (left ++ '\n' :: more)) = .ok (l, left ++ '\n' :: more) := by
  have hopens : Opens left (left ++ '\n' :: more) := by
    have hfeed := Opens.append left (Opens.here (by decide : '\n' ∈ spacers) more : Opens [] _)
    rwa [List.append_nil] at hfeed
  refine scan_opens_of_lexes hopens htaken hscan hlater fun {word word'} hleft hleft' hhead => ?_
  subst hleft
  obtain rfl : word ++ '\n' :: more = word' := (List.cons.inj hleft').2
  cases word with
  | nil =>
    have hfeed : Pattern.isExponentMark '\n' = false := by decide
    simp [hfeed] at hhead
  | cons c word =>
    obtain ⟨label, rest, hlabel⟩ := label_of_exponent (by simpa using hhead) hlater
    have hsplit := scanLabel_append (c :: word)
    rw [hlabel] at hsplit
    refine ⟨label, rest, rest ++ '\n' :: more, hsplit.symm, ?_⟩
    rw [← hsplit, List.append_assoc, List.cons_append]

/-! ### Joined texts -/

/-- Whether a text ends with a string, when it stands behind one or not. -/
def Token.endsInString (afterString : Bool) (tokens : List Token) : Bool :=
  tokens.foldl (fun _ token => token.lexeme.isString) afterString

/-- In front of a line feed, a text that has no fault keeps all its tokens but the end. -/
theorem Lexes.scanFrom_feed {afterString : Bool} {text : List Char} {lexemes : List Lexeme}
    (h : Lexes afterString text lexemes) (place : Place) (more : List Char) :
    ∃ tokens, tokens.map (·.lexeme) ++ [.eof] = lexemes ∧
      Token.scanFrom place afterString (text ++ '\n' :: more) =
        let behind := Token.scanFrom (place.after (text ++ ['\n']))
          (Token.endsInString afterString tokens) more
        ⟨tokens ++ behind.tokens, behind.fault⟩ := by
  induction h generalizing place with
  | @eof afterString text hskip =>
    refine ⟨[], rfl, ?_⟩
    have hlay : ∀ more, skipLayout false ((text ++ ['\n']) ++ more) = skipLayout false more :=
      fun more => by rw [List.append_assoc]; exact skipLayout_feed hskip more
    have hbehind := Token.scanFrom_append hlay place afterString more
    rwa [List.append_assoc] at hbehind
  | @cons afterString text rest left c l later hskip hscan hlater ih =>
    obtain ⟨lay, more', -, -, rfl, rfl, -⟩ := Token.exists_spansFrom hskip hscan
    have htext : lay ++ c :: (more' ++ left) ++ '\n' :: more =
        lay ++ c :: (more' ++ (left ++ '\n' :: more)) := by simp
    have hrest : more' ++ left ++ '\n' :: more = more' ++ (left ++ '\n' :: more) := by simp
    have hskip' := skipLayout_append_of_cons hskip ('\n' :: more)
    rw [htext, hrest] at hskip'
    have hscan' := @Lexeme.scan_feed _ (c :: more') left l _ nofun hscan hlater more
    have hend : place.after (lay ++ c :: (more' ++ left) ++ ['\n']) =
        (place.after (lay ++ c :: more')).after (left ++ ['\n']) := by
      rw [← Place.after_append]
      simp
    obtain ⟨tokens, hlexemes, hbehind⟩ := ih (place.after (lay ++ c :: more'))
    refine ⟨⟨l, place.after lay⟩ :: tokens, congrArg (l :: ·) hlexemes, ?_⟩
    rw [htext, Token.scanFrom_split hskip' hscan', hbehind, hend]
    rfl

end Rdf

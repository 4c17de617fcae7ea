import Rdf.Proofs.Text.Lines
import Rdf.Proofs.Token.Joining
import Rdf.Token.Walk

/-!
Reading token after token.

A cursor that reads one token after another comes to the end of the text or to the first fault. Each
token takes characters, the tokens have nothing but layout between them, and their places are true.
-/

namespace Rdf

open Scan

namespace Cursor

/-! ### Runs -/

/-- A token, and the offsets where its lexeme begins and where the cursor stands behind it. -/
structure Reading where
  token : Token
  start : Nat
  stop : Nat

def readingOf (cursor behind : Cursor) (token : Token) : Reading :=
  ⟨token, cursor.skip.offset.toNat, behind.offset.toNat⟩

/-- What a cursor reads token after token, up to the end of the text or up to the first fault. -/
inductive Run : Cursor → List Reading → Option StepFault → Prop
  | ends {cursor behind : Cursor} {token : Token} (h : cursor.next = (.ok token, behind))
    (hend : token.lexeme = .eof) : Run cursor [cursor.readingOf behind token] none
  | fails {cursor behind : Cursor} {fault : StepFault} (h : cursor.next = (.error fault, behind)) :
    Run cursor [] (some fault)
  | more {cursor behind : Cursor} {token : Token} {later : List Reading} {fault : Option StepFault}
    (h : cursor.next = (.ok token, behind)) (hmore : token.lexeme ≠ .eof)
    (hlater : Run behind later fault) : Run cursor (cursor.readingOf behind token :: later) fault

/-- A cursor has one run: the next token, or the next fault, says by which case it goes on. -/
theorem Run.unique {cursor : Cursor} {readings readings' : List Reading}
    {fault fault' : Option StepFault} (h : Run cursor readings fault)
    (h' : Run cursor readings' fault') : readings' = readings ∧ fault' = fault := by
  induction h generalizing readings' with
  | ends h hend =>
    cases h' with
    | ends h' =>
      cases h.symm.trans h'
      exact ⟨rfl, rfl⟩
    | fails h' => cases h.symm.trans h'
    | more h' hmore =>
      cases h.symm.trans h'
      exact absurd hend hmore
  | fails h =>
    cases h' with
    | ends h' => cases h.symm.trans h'
    | fails h' =>
      cases h.symm.trans h'
      exact ⟨rfl, rfl⟩
    | more h' => cases h.symm.trans h'
  | more h hmore _ ih =>
    cases h' with
    | ends h' hend =>
      cases h.symm.trans h'
      exact absurd hend hmore
    | fails h' => cases h.symm.trans h'
    | more h' _ hlater =>
      cases h.symm.trans h'
      obtain ⟨rfl, rfl⟩ := ih hlater
      exact ⟨rfl, rfl⟩

/-! ### Steps -/

variable {read taken left lay : List Char} {afterString : Bool} {l : Lexeme}

/-- The cursor between a text that has been read and one that is left. -/
def between (read left : List Char) (afterString : Bool) : Cursor :=
  ⟨read ++ left, read.length, afterString⟩

theorem afterString_between : (between read left afterString).afterString = afterString := rfl

theorem rest_between : (between read left afterString).rest = left := by
  simp [rest, between]

theorem offsetOf_between : (between read (taken ++ left) afterString).offsetOf left =
    (read ++ taken).length := by
  rw [offsetOf, rest_between, List.length_append, List.length_append]
  simp only [between]
  omega

theorem moveTo_between : (between read (taken ++ left) afterString).moveTo (read ++ taken).length =
    between (read ++ taken) left afterString := by
  simp [moveTo, between]

theorem place_between (offset : Option Int)
    (h : offset.getD read.length = (read ++ taken).length) :
    (between read (taken ++ left) afterString).place offset =
      Place.start.after (read ++ taken) := by
  simp only [place, between, h]
  rw [← List.append_assoc, Place.locate_eq_ofOffset, Place.ofOffset_of_le (by simp),
    List.take_left]

theorem skip_between (h : skipLayout false (lay ++ left) = left) :
    (between read (lay ++ left) afterString).skip = between (read ++ lay) left afterString := by
  rw [skip, rest_between, h, offsetOf_between, moveTo_between]

/-- Where the text goes on with a lexeme, the cursor gives it as a token and stops behind it. -/
theorem next_of_ok (hskip : skipLayout false (lay ++ (taken ++ left)) = taken ++ left)
    (hscan : Lexeme.scan afterString (taken ++ left) = .ok (l, left)) :
    (between read (lay ++ (taken ++ left)) afterString).next =
      (.ok ⟨l, Place.start.after (read ++ lay)⟩,
        between (read ++ lay ++ taken) left l.isString) := by
  have hrun : (between (read ++ lay) (taken ++ left) afterString).read (Lexeme.scan afterString)
      Walk.lexeme = (.ok l, between (read ++ lay ++ taken) left afterString) := by
    rw [read_of_nonneg (Int.natCast_nonneg _), run, rest_between, hscan]
    simp only [offsetOf_between, moveTo_between]
  have hplace := @place_between (read ++ lay) [] (taken ++ left) afterString none (by simp)
  rw [List.append_nil, List.nil_append] at hplace
  simp only [next, skip_between hskip, afterString_between, hrun, hplace]
  rfl

theorem next_of_nil (h : skipLayout false lay = []) :
    (between read lay afterString).next =
      (.ok ⟨.eof, Place.start.after (read ++ lay)⟩, between (read ++ lay) [] false) := by
  have hnext := @next_of_ok read [] [] lay afterString .eof (by simpa using h) rfl
  rwa [List.append_nil, List.append_nil, List.append_nil] at hnext

theorem next_of_error {fault : ScanFault}
    (hskip : skipLayout false (lay ++ (taken ++ left)) = taken ++ left)
    (hscan : Lexeme.scan afterString (taken ++ left) = .error fault) (hsite : fault.site = left) :
    ∃ behind, (between read (lay ++ (taken ++ left)) afterString).next =
      (.error (.lexical ⟨Place.start.after (read ++ lay ++ taken), fault.cause⟩), behind) := by
  have hrun : (between (read ++ lay) (taken ++ left) afterString).read (Lexeme.scan afterString)
      Walk.lexeme = (.error (.lexical ⟨Place.start.after (read ++ lay ++ taken), fault.cause⟩),
        (between (read ++ lay) (taken ++ left) afterString).moveTo
          ((between (read ++ lay) (taken ++ left) afterString).offsetOf fault.stop)) := by
    rw [read_of_nonneg (Int.natCast_nonneg _), run, rest_between, hscan]
    simp only [hsite, offsetOf_between]
    rw [place_between _ rfl]
  simp only [next, skip_between hskip, afterString_between, hrun]
  exact ⟨_, rfl⟩

theorem readingOf_between {next : List Char} {isString : Bool}
    (hskip : skipLayout false (lay ++ left) = left) (token : Token) :
    (between read (lay ++ left) afterString).readingOf (between taken next isString) token =
      ⟨token, (read ++ lay).length, taken.length⟩ := by
  rw [readingOf, skip_between hskip]
  rfl

theorem run_of_nil (h : skipLayout false lay = []) :
    Run (between read lay afterString) [⟨⟨.eof, Place.start.after (read ++ lay)⟩,
      (read ++ lay).length, (read ++ lay).length⟩] none := by
  have hreading := @readingOf_between read (read ++ lay) [] lay afterString [] false
    (by rwa [List.append_nil]) ⟨.eof, Place.start.after (read ++ lay)⟩
  rw [List.append_nil] at hreading
  exact hreading ▸ .ends (next_of_nil h) rfl

theorem run_of_ok {later : List Reading} {fault : Option StepFault}
    (hskip : skipLayout false (lay ++ (taken ++ left)) = taken ++ left)
    (hscan : Lexeme.scan afterString (taken ++ left) = .ok (l, left)) (hl : l ≠ .eof)
    (hlater : Run (between (read ++ lay ++ taken) left l.isString) later fault) :
    Run (between read (lay ++ (taken ++ left)) afterString)
      (⟨⟨l, Place.start.after (read ++ lay)⟩, (read ++ lay).length,
        (read ++ lay ++ taken).length⟩ :: later) fault := by
  have hreading := @readingOf_between read (read ++ lay ++ taken) _ lay afterString left l.isString
    hskip ⟨l, Place.start.after (read ++ lay)⟩
  exact hreading ▸ .more (next_of_ok hskip hscan) hl hlater

/-! ### Readings that cover a text -/

/-- The readings of a text, which stands behind what has been read, cut it into layout and lexemes:
up to its end, or up to a fault. -/
inductive Tiles : List Char → List Char → List Reading → Option LexicalError → Prop
  | ends {read lay : List Char} (hlay : skipLayout false lay = []) :
    Tiles read lay [⟨⟨.eof, Place.start.after (read ++ lay)⟩, (read ++ lay).length,
      (read ++ lay).length⟩] none
  | fails (read left : List Char) (error : LexicalError) : Tiles read left [] (some error)
  | more {read lay taken left : List Char} {l : Lexeme} {later : List Reading}
    {fault : Option LexicalError} (hlay : Gap lay) (htaken : taken ≠ []) (hl : l ≠ .eof)
    (hlater : Tiles (read ++ lay ++ taken) left later fault) :
    Tiles read (lay ++ (taken ++ left)) (⟨⟨l, Place.start.after (read ++ lay)⟩,
      (read ++ lay).length, (read ++ lay ++ taken).length⟩ :: later) fault

theorem upTo_between (read lay taken left : List Char) :
    ((Place.start.after read).upTo (lay ++ (taken ++ left)) (taken ++ left)).upTo (taken ++ left)
      left = Place.start.after (read ++ lay ++ taken) := by
  rw [Place.upTo_append, Place.upTo_append, Place.after_append, Place.after_append]

/-- From any place in a text on, a cursor comes to the end of it or to a fault, and what it reads on
the way are the tokens of the text. -/
theorem exists_run (read left : List Char) (afterString : Bool) :
    ∃ readings,
      Run (between read left afterString) readings
        ((Token.scanFrom (Place.start.after read) afterString left).fault.map .lexical) ∧
      readings.map (·.token) = (Token.scanFrom (Place.start.after read) afterString left).tokens ∧
      Tiles read left readings
        (Token.scanFrom (Place.start.after read) afterString left).fault := by
  generalize hplace : Place.start.after read = place
  induction place, afterString, left using Token.scanFrom.induct generalizing read with
  | case1 place afterString text hskip =>
    subst hplace
    have hend : (Place.start.after read).upTo text [] = Place.start.after (read ++ text) := by
      have hupTo := Place.upTo_append (Place.start.after read) text []
      rwa [List.append_nil, ← Place.after_append] at hupTo
    rw [Token.scanFrom_of_nil hskip, hend]
    exact ⟨_, run_of_nil hskip, rfl, .ends hskip⟩
  | case2 place afterString text c rest hskip fault hscan =>
    subst hplace
    obtain ⟨-, lay, rfl, -⟩ := gap_of_skipLayout hskip
    obtain ⟨taken, hsite⟩ := (Lexeme.within_scan afterString (c :: rest)).error hscan
    rw [Token.scanFrom_of_error hskip hscan]
    rw [← hsite] at hskip hscan ⊢
    obtain ⟨behind, hnext⟩ := @next_of_error read taken _ lay _ _ hskip hscan rfl
    refine ⟨[], ?_, rfl, .fails _ _ _⟩
    rw [upTo_between]
    exact .fails hnext
  | case3 place afterString text c rest hskip start lexeme left hscan ih =>
    subst hplace
    obtain ⟨lay, more, hlay, -, rfl, rfl, -⟩ := Token.exists_spansFrom hskip hscan
    -- the rest is read from behind the layout and the lexeme, where the next cursor stands
    have hnext : Place.start.after (read ++ lay ++ c :: more) =
        start.upTo (c :: (more ++ left)) left := (upTo_between read lay (c :: more) left).symm
    have hread : Place.start.after (read ++ lay ++ c :: more) =
        (Place.start.after read).after (lay ++ c :: more) := by
      rw [List.append_assoc, Place.after_append]
    obtain ⟨readings, hrun, htokens, htiles⟩ := ih (read ++ lay ++ (c :: more)) hnext
    rw [← hnext, hread] at hrun htokens htiles
    rw [Token.scanFrom_split hskip hscan]
    refine ⟨_, @run_of_ok read (c :: more) left lay _ _ _ _ hskip hscan
      (Lexeme.ne_eof_of_scan hscan) hrun, ?_, ?_⟩
    · simp [htokens, Place.after_append]
    · exact .more hlay (List.cons_ne_nil _ _) (Lexeme.ne_eof_of_scan hscan) htiles

/-- Between two offsets of a text there are only blanks and comments. A comment at the end of the
text needs no line end. -/
def OnlyLayout (text : List Char) (start stop : Nat) : Prop :=
  Gap ((text.take stop).drop start) ∨
    stop = text.length ∧ Gap ((text.take stop).drop start ++ ['\n'])

theorem gap_feed (h : skipLayout false lay = []) : Gap (lay ++ ['\n']) := by
  obtain ⟨-, gap, hsplit, hgap⟩ := gap_of_skipLayout (skipLayout_feed h ['x'])
  have hfeed : (lay ++ ['\n']) ++ ['x'] = gap ++ ['x'] := by simpa using hsplit
  exact List.append_cancel_right hfeed ▸ hgap

namespace Tiles

variable {readings : List Reading} {fault : Option LexicalError}

theorem length_le (h : Tiles read left readings fault) : readings.length ≤ left.length + 1 := by
  induction h with
  | ends => simp
  | fails => simp
  | more _ htaken _ _ ih =>
    have hpos := List.length_pos_iff.2 htaken
    simp only [List.length_cons, List.length_append] at ih ⊢
    omega

theorem exists_last (h : Tiles read left readings none) :
    ∃ front last, readings = front ++ [last] ∧ last.token.lexeme = .eof ∧
      ∀ r ∈ front, r.token.lexeme ≠ .eof := by
  generalize hnone : none = fault at h
  induction h with
  | ends => exact ⟨[], _, rfl, rfl, List.forall_mem_nil _⟩
  | fails => cases hnone
  | more _ _ hl _ ih =>
    obtain ⟨front, last, rfl, heof, hfront⟩ := ih hnone
    exact ⟨_ :: front, last, rfl, heof, List.forall_mem_cons.2 ⟨hl, hfront⟩⟩

theorem ne_eof {error : LexicalError} (h : Tiles read left readings (some error)) :
    ∀ r ∈ readings, r.token.lexeme ≠ .eof := by
  generalize hsome : some error = fault at h
  induction h with
  | ends => cases hsome
  | fails => exact List.forall_mem_nil _
  | more _ _ hl _ ih => exact List.forall_mem_cons.2 ⟨hl, ih hsome⟩

theorem bounds (h : Tiles read left readings fault) :
    ∀ r ∈ readings, read.length ≤ r.start ∧ r.start ≤ r.stop ∧ r.stop ≤ (read ++ left).length := by
  induction h with
  | ends => simp
  | fails => exact List.forall_mem_nil _
  | more _ _ _ _ ih =>
    refine List.forall_mem_cons.2 ⟨?_, fun r hr => ?_⟩
    · simp only [List.length_append]
      omega
    · have hbounds := ih r hr
      simp only [List.length_append] at hbounds ⊢
      omega

theorem start_lt_stop (h : Tiles read left readings fault) :
    ∀ r ∈ readings, r.token.lexeme ≠ .eof → r.start < r.stop := by
  induction h with
  | ends => simp
  | fails => exact List.forall_mem_nil _
  | more _ htaken _ _ ih =>
    have hpos := List.length_pos_iff.2 htaken
    refine List.forall_mem_cons.2 ⟨fun _ => ?_, ih⟩
    simp only [List.length_append]
    omega

theorem pairwise (h : Tiles read left readings fault) :
    readings.Pairwise fun r later => r.start < later.start ∧ r.stop ≤ later.start := by
  induction h with
  | ends => exact List.pairwise_singleton _ _
  | fails => exact List.Pairwise.nil
  | more _ htaken _ hlater ih =>
    have hpos := List.length_pos_iff.2 htaken
    refine List.pairwise_cons.2 ⟨fun r hr => ?_, ih⟩
    have hstart := (hlater.bounds r hr).1
    simp only [List.length_append] at hstart ⊢
    omega

theorem place (h : Tiles read left readings fault) :
    ∀ r ∈ readings, r.token.place = Place.start.after ((read ++ left).take r.start) := by
  induction h with
  | ends => exact List.forall_mem_singleton.2 (by rw [List.take_length])
  | fails => exact List.forall_mem_nil _
  | @more read lay taken left _ _ _ _ _ _ _ ih =>
    refine List.forall_mem_cons.2 ⟨?_, fun r hr => ?_⟩
    · rw [← List.append_assoc, List.take_left]
    · have hplace := ih r hr
      simpa only [List.append_assoc] using hplace

/-- Each token begins behind the one before it, with only layout between them. -/
theorem onlyLayout (h : Tiles read left readings fault) :
    ∀ gap ∈ (read.length :: readings.map (·.stop)).zip (readings.map (·.start)),
      OnlyLayout (read ++ left) gap.1 gap.2 := by
  induction h with
  | @ends read lay hlay =>
    refine List.forall_mem_singleton.2 (.inr ⟨rfl, ?_⟩)
    rw [List.take_length, List.drop_left]
    exact gap_feed hlay
  | fails => exact List.forall_mem_nil _
  | @more read lay taken left _ _ _ hlay _ _ _ ih =>
    simp only [List.map_cons, List.zip_cons_cons]
    refine List.forall_mem_cons.2 ⟨.inl ?_, fun gap hgap => ?_⟩
    · rwa [← List.append_assoc, List.take_left, List.drop_left]
    · have hlayout := ih gap hgap
      simpa only [List.append_assoc] using hlayout

end Tiles

/-- What is read of a text token after token makes progress and has true places. -/
structure Progress (text : List Char) (readings : List Reading) (fault : Option LexicalError) :
    Prop where
  length_le : readings.length ≤ text.length + 1
  /-- Without a fault, the last token is the end of the text, and no other one is. -/
  ends : fault = none → ∃ front last, readings = front ++ [last] ∧ last.token.lexeme = .eof ∧
    ∀ r ∈ front, r.token.lexeme ≠ .eof
  /-- With a fault, no token is the end of the text. -/
  fails : fault ≠ none → ∀ r ∈ readings, r.token.lexeme ≠ .eof
  inside : ∀ r ∈ readings, r.start ≤ r.stop ∧ r.stop ≤ text.length
  start_lt_stop : ∀ r ∈ readings, r.token.lexeme ≠ .eof → r.start < r.stop
  ascends : readings.Pairwise fun r later => r.start < later.start ∧ r.stop ≤ later.start
  /-- In front of each token there is only layout, back to the token before it or to the start. -/
  onlyLayout : ∀ gap ∈ (0 :: readings.map (·.stop)).zip (readings.map (·.start)),
    OnlyLayout text gap.1 gap.2
  /-- Lines are counted by the line feeds, columns by the characters behind the last of them. -/
  place : ∀ r ∈ readings, r.token.place = ⟨1 + (text.take r.start).count '\n',
    1 + ((text.take r.start).reverse.takeWhile (· ≠ '\n')).length⟩
  offset : ∀ r ∈ readings, r.token.place.offsetIn text = r.start

theorem Tiles.progress {text : List Char} {readings : List Reading} {fault : Option LexicalError}
    (h : Tiles [] text readings fault) : Progress text readings fault where
  length_le := h.length_le
  ends hfault := (hfault ▸ h).exists_last
  fails hfault := by
    obtain ⟨error, rfl⟩ := Option.ne_none_iff_exists'.1 hfault
    exact h.ne_eof
  inside r hr := (h.bounds r hr).2
  start_lt_stop := h.start_lt_stop
  ascends := h.pairwise
  onlyLayout := h.onlyLayout
  place r hr := by
    rw [h.place r hr, List.nil_append, ← Place.column_after]
    exact congrArg (Place.mk · _) (Place.line_after _ _)
  offset r hr := by
    obtain ⟨-, hstart, hstop⟩ := h.bounds r hr
    have hinside : r.start ≤ text.length := Nat.le_trans hstart hstop
    rw [h.place r hr, List.nil_append, ← Place.ofOffset_of_le hinside, ← Place.locate_eq_ofOffset]
    exact Place.offsetIn_locate (Int.natCast_nonneg _)

end Cursor

/-- Reading token after token, a cursor comes to the end of a text or to its first fault, in one way
only. What it has read by then are the tokens of the text, each of them further on than the one
before it and with its true place. -/
theorem Token.scanAll_progress (text : String) :
    ∃ readings, (∀ readings' fault', Cursor.Run ⟨text.toList, 0, false⟩ readings' fault' ↔
        readings' = readings ∧ fault' = (scanAll text).fault.map .lexical) ∧
      readings.map (·.token) = (scanAll text).tokens ∧
      Cursor.Progress text.toList readings (scanAll text).fault := by
  obtain ⟨readings, hrun, htokens, htiles⟩ := Cursor.exists_run [] text.toList false
  refine ⟨readings, fun readings' fault' => ⟨fun h => hrun.unique h, ?_⟩, htokens,
    htiles.progress⟩
  rintro ⟨rfl, rfl⟩
  exact hrun

end Rdf

import Rdf.Document.Machine

/-!
Runs of a machine over lexemes.

A machine sees the lexemes of tokens only, so that their places matter for errors and for nothing
else.
-/

namespace Rdf

/-- A result with a property, or a fault with one. -/
def Answers {ε α : Type} (holds : α → Prop) (blames : ε → Prop) : Except ε α → Prop
  | .ok result => holds result
  | .error fault => blames fault

theorem Answers.of_ok {ε α : Type} {holds : α → Prop} {blames : ε → Prop} {result : Except ε α}
    (h : ∃ a, result = .ok a ∧ holds a) : Answers holds blames result := by
  obtain ⟨a, rfl, ha⟩ := h
  exact ha

theorem Answers.imp {ε α : Type} {holds holds' : α → Prop} {blames : ε → Prop}
    {result : Except ε α} (h : Answers holds blames result) (hholds : ∀ a, holds a → holds' a) :
    Answers holds' blames result := by
  cases result with
  | error fault => exact h
  | ok a => exact hholds a h

/-- The failure is a fault of the text, or the refusal of one of its tokens. -/
def ReadFailure.StemsFrom (blames : Lexeme → Refusal → Prop) (source : SourceName)
    (found : Tokens) (failure : ReadFailure) : Prop :=
  (∃ error, found.fault = some error ∧ failure = .ofLexical source error) ∨
    ∃ token ∈ found.tokens, ∃ refusal, blames token.lexeme refusal ∧
      failure = .ofRefusal source token refusal

namespace Machine

variable {σ α : Type} (machine : Machine σ α) {state next : σ} {tokens : List Token}
  {lexemes : List Lexeme} {source : SourceName}

/-- The state behind a row of lexemes. -/
def runLexemes (state : σ) : List Lexeme → Except Refusal σ
  | [] => .ok state
  | lexeme :: rest =>
    match machine.step state lexeme with
    | .error refusal => .error refusal
    | .ok next => runLexemes next rest

theorem runLexemes_append (state : σ) (first second : List Lexeme) :
    machine.runLexemes state (first ++ second) =
      (machine.runLexemes state first).bind (machine.runLexemes · second) := by
  induction first generalizing state with
  | nil => rfl
  | cons lexeme rest ih =>
    simp only [List.cons_append, runLexemes]
    split
    · rfl
    · exact ih _

theorem runLexemes_append_of_ok (h : machine.runLexemes state lexemes = .ok next)
    (more : List Lexeme) :
    machine.runLexemes state (lexemes ++ more) = machine.runLexemes next more := by
  rw [runLexemes_append, h]
  rfl

/-- A run over two rows goes through a state between them. -/
theorem between_of_runLexemes {first second : List Lexeme}
    (h : machine.runLexemes state (first ++ second) = .ok next) :
    ∃ middle, machine.runLexemes state first = .ok middle ∧
      machine.runLexemes middle second = .ok next := by
  rw [runLexemes_append] at h
  cases hm : machine.runLexemes state first with
  | error refusal => simp [hm, Except.bind] at h
  | ok middle => exact ⟨middle, rfl, by rwa [hm] at h⟩

/-- A run over a row begins with a step. -/
theorem step_of_runLexemes {l : Lexeme} (h : machine.runLexemes state (l :: lexemes) = .ok next) :
    ∃ middle, machine.step state l = .ok middle ∧ machine.runLexemes middle lexemes = .ok next := by
  simp only [runLexemes] at h
  split at h
  · cases h
  · next middle hs => exact ⟨middle, hs, h⟩

/-- A run that is refused is refused at a lexeme. -/
theorem refused_of_runLexemes {refusal : Refusal}
    (h : machine.runLexemes state lexemes = .error refusal) :
    ∃ before l after middle, lexemes = before ++ l :: after ∧
      machine.runLexemes state before = .ok middle ∧ machine.step middle l = .error refusal := by
  induction lexemes generalizing state with
  | nil => cases h
  | cons l rest ih =>
    simp only [runLexemes] at h
    cases hs : machine.step state l with
    | error found =>
      rw [hs] at h
      exact ⟨[], l, rest, state, rfl, rfl, hs.trans h⟩
    | ok next =>
      rw [hs] at h
      obtain ⟨before, last, after, middle, rfl, hbefore, hlast⟩ := ih h
      exact ⟨l :: before, last, after, middle, rfl, by rw [runLexemes, hs]; exact hbefore, hlast⟩

theorem runLexemes_append_of_error {refusal : Refusal}
    (h : machine.runLexemes state lexemes = .error refusal) (more : List Lexeme) :
    machine.runLexemes state (lexemes ++ more) = .error refusal := by
  rw [runLexemes_append, h]
  rfl

theorem run_eq_ok_iff :
    machine.run state tokens = .ok next ↔
      machine.runLexemes state (tokens.map (·.lexeme)) = .ok next := by
  induction tokens generalizing state with
  | nil => simp [run, runLexemes]
  | cons token rest ih =>
    simp only [List.map_cons, run, runLexemes]
    cases machine.step state token.lexeme with
    | error refusal => simp
    | ok s => exact ih

theorem step_of_run_concat {last : Token} (h : machine.run state (tokens ++ [last]) = .ok next) :
    ∃ s, machine.step s last.lexeme = .ok next := by
  rw [run_append] at h
  cases hr : machine.run state tokens with
  | error refused => simp [hr, Except.bind] at h
  | ok s =>
    refine ⟨s, ?_⟩
    simp only [hr, Except.bind, run] at h
    split at h
    · simp at h
    · next s1 hs => exact Except.ok.inj h ▸ hs

/-- A refusal of a lexeme is the refusal of a token. -/
theorem run_eq_error {refusal : Refusal}
    (h : machine.runLexemes state (tokens.map (·.lexeme)) = .error refusal) :
    ∃ token ∈ tokens, machine.run state tokens = .error (token, refusal) := by
  induction tokens generalizing state with
  | nil => simp [runLexemes] at h
  | cons token rest ih =>
    simp only [List.map_cons, runLexemes] at h
    cases hs : machine.step state token.lexeme with
    | error found =>
      rw [hs] at h
      obtain rfl := Except.error.inj h
      exact ⟨token, List.mem_cons_self, by simp [run, hs]⟩
    | ok s =>
      rw [hs] at h
      obtain ⟨found, hmem, hrun⟩ := ih h
      exact ⟨found, List.mem_cons_of_mem token hmem, by simp [run, hs, hrun]⟩

/-- A run that is refused is refused at a token, behind tokens that are taken. -/
theorem refused_of_run {token : Token} {refusal : Refusal}
    (h : machine.run state tokens = .error (token, refusal)) :
    ∃ before after middle, tokens = before ++ token :: after ∧
      machine.runLexemes state (before.map (·.lexeme)) = .ok middle ∧
      machine.step middle token.lexeme = .error refusal := by
  induction tokens generalizing state with
  | nil => cases h
  | cons first rest ih =>
    simp only [run] at h
    cases hs : machine.step state first.lexeme with
    | error found =>
      rw [hs] at h
      obtain ⟨rfl, rfl⟩ := Prod.mk.inj (Except.error.inj h)
      exact ⟨[], rest, state, rfl, rfl, hs⟩
    | ok next =>
      rw [hs] at h
      obtain ⟨before, after, middle, rfl, hbefore, hlast⟩ := ih h
      exact ⟨first :: before, after, middle, rfl, by simpa [runLexemes, hs] using hbefore, hlast⟩

/-- Only the refusal of a token is a fault that the grammar finds. -/
theorem run_of_read_grammar {tokens : Tokens} {name : SourceName} {place : Place}
    {fault : GrammarFault} {token : Token}
    (h : machine.read source state tokens =
      .error (.document ⟨name, place, .grammar fault token⟩)) :
    machine.run state tokens.tokens = .error (token, .grammar fault) ∧ place = token.place := by
  simp only [read] at h
  split at h
  · next found refusal hrun =>
    cases refusal with
    | grammar other =>
      simp only [ReadFailure.ofRefusal, Except.error.injEq, ReadFailure.document.injEq,
        ReadError.mk.injEq, ReadFault.grammar.injEq] at h
      obtain ⟨-, rfl, rfl, rfl⟩ := h
      exact ⟨hrun, rfl⟩
    | _ => simp [ReadFailure.ofRefusal] at h
  · split at h <;> simp [ReadFailure.ofLexical] at h

theorem read_eq_ok_iff {fault : Option LexicalError} {result : α} :
    machine.read source state ⟨tokens, fault⟩ = .ok result ↔
      ∃ next, machine.runLexemes state (tokens.map (·.lexeme)) = .ok next ∧
        machine.result? next = some result := by
  cases hl : machine.runLexemes state (tokens.map (·.lexeme)) with
  | error refusal =>
    obtain ⟨token, -, hrun⟩ := machine.run_eq_error hl
    simp [read, hrun]
  | ok next =>
    have hrun := machine.run_eq_ok_iff.2 hl
    cases hr : machine.result? next <;> cases fault <;> simp [read, hrun, hr]

theorem read_eq_error {refusal : Refusal}
    (h : machine.runLexemes state (tokens.map (·.lexeme)) = .error refusal) :
    ∃ token ∈ tokens,
      machine.read source state ⟨tokens, none⟩ = .error (.ofRefusal source token refusal) := by
  obtain ⟨token, hmem, hrun⟩ := machine.run_eq_error h
  exact ⟨token, hmem, by simp [read, hrun]⟩

/-- A machine that follows each step of another one follows its runs. -/
theorem runLexemes_follows {τ β : Type} (other : Machine τ β) (related : σ → τ → Prop)
    (hstep : ∀ {s s1 : σ} {t : τ} {l : Lexeme}, related s t → machine.step s l = .ok s1 →
      ∃ t1, other.step t l = .ok t1 ∧ related s1 t1)
    {t : τ} (h : related state t) (hrun : machine.runLexemes state lexemes = .ok next) :
    ∃ t1, other.runLexemes t lexemes = .ok t1 ∧ related next t1 := by
  induction lexemes generalizing state t with
  | nil =>
    obtain rfl := Except.ok.inj hrun
    exact ⟨t, rfl, h⟩
  | cons lexeme rest ih =>
    simp only [runLexemes] at hrun
    split at hrun
    · simp at hrun
    · next s1 hs =>
      obtain ⟨t1, ht, hrelated⟩ := hstep h hs
      obtain ⟨t2, hrest, hend⟩ := ih hrelated hrun
      exact ⟨t2, by simp only [runLexemes, ht, hrest], hend⟩

/-! ### Invariants -/

section Invariants

variable {holds : σ → Prop} {fits : Lexeme → Prop} {blames : Lexeme → Refusal → Prop}
  (hstep : ∀ {s : σ} {l : Lexeme}, holds s → fits l → Answers holds (blames l) (machine.step s l))
  (hstart : holds state)

include hstep hstart

/-- What a step keeps, a run keeps, and a refusal is one of a token of the run. -/
theorem run_answers (htokens : ∀ token ∈ tokens, fits token.lexeme) :
    Answers holds (fun refused => refused.1 ∈ tokens ∧ blames refused.1.lexeme refused.2)
      (machine.run state tokens) := by
  induction tokens generalizing state with
  | nil => exact hstart
  | cons token rest ih =>
    obtain ⟨hfirst, hrest⟩ := List.forall_mem_cons.1 htokens
    have hnext := hstep hstart hfirst
    simp only [run]
    cases hs : machine.step state token.lexeme with
    | error refusal =>
      rw [hs] at hnext
      exact ⟨List.mem_cons_self, hnext⟩
    | ok next =>
      rw [hs] at hnext
      have hlater := ih hnext hrest
      simp only
      cases hr : machine.run next rest with
      | error refused =>
        rw [hr] at hlater
        exact ⟨List.mem_cons_of_mem token hlater.1, hlater.2⟩
      | ok last => rwa [hr] at hlater

/-- A document that is not read has a fault of its text or a token that is refused, where the last
token leads to a result. -/
theorem read_answers {found : Tokens} (htokens : ∀ token ∈ found.tokens, fits token.lexeme)
    (hends : found.fault = none → ∃ before last, found.tokens = before ++ [last] ∧
      ∀ {s next : σ}, machine.step s last.lexeme = .ok next →
        ∃ result, machine.result? next = some result) :
    Answers (fun result => ∃ s, holds s ∧ machine.result? s = some result)
      (·.StemsFrom blames source found) (machine.read source state found) := by
  have hrun := machine.run_answers hstep hstart htokens
  cases hr : machine.run state found.tokens with
  | error refused =>
    rw [hr] at hrun
    simp only [read, hr]
    exact .inr ⟨refused.1, hrun.1, refused.2, hrun.2, rfl⟩
  | ok next =>
    rw [hr] at hrun
    cases hresult : machine.result? next with
    | some result =>
      simp only [read, hr, hresult]
      exact ⟨next, hrun, hresult⟩
    | none =>
      cases hfault : found.fault with
      | some error =>
        simp only [read, hr, hresult, hfault]
        exact .inl ⟨error, hfault, rfl⟩
      | none =>
        -- the last token would have led to a result
        obtain ⟨before, last, hsplit, hlast⟩ := hends hfault
        obtain ⟨s, hs⟩ := machine.step_of_run_concat (hsplit ▸ hr)
        obtain ⟨result, hr⟩ := hlast hs
        simp [hresult] at hr

end Invariants

end Machine

end Rdf

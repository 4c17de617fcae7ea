import Rdf.Document.Error

/-!
Machines that read tokens.

A machine goes from state to state by one lexeme at a time. It has read a document when the tokens
lead it to a state with a result.
-/

namespace Rdf

/-- A machine over the states `σ` with results in `α`. -/
structure Machine (σ α : Type) where
  step : σ → Lexeme → Except Refusal σ
  result? : σ → Option α

namespace Machine

variable {σ α : Type} (machine : Machine σ α)

/-- The state behind a row of tokens, or the token that is refused. -/
def run (state : σ) : List Token → Except (Token × Refusal) σ
  | [] => .ok state
  | token :: rest =>
    match machine.step state token.lexeme with
    | .error refusal => .error (token, refusal)
    | .ok next => run next rest

def read (source : SourceName) (start : σ) (tokens : Tokens) : Except ReadFailure α :=
  match machine.run start tokens.tokens with
  | .error (token, refusal) => .error (.ofRefusal source token refusal)
  | .ok state =>
    match machine.result? state, tokens.fault with
    | some result, _ => .ok result
    | none, some error => .error (.ofLexical source error)
    | none, none => .error .unfinished

theorem run_append (state : σ) (first second : List Token) :
    machine.run state (first ++ second) =
      (machine.run state first).bind (machine.run · second) := by
  induction first generalizing state with
  | nil => rfl
  | cons token rest ih =>
    simp only [List.cons_append, run]
    split
    · rfl
    · exact ih _

end Machine

end Rdf

import Rdf.NTriples.Printer
import Rdf.Proofs.Turtle.Compaction
import Rdf.Proofs.Turtle.RoundTrip

/-!
What keeps a graph from being written.

The printers refuse labels of blank nodes and language tags that have not the form of one, and
nothing else about valid triples. A collection hides the labels of its cells, so that these may be
anything; all that is not hidden is written somewhere, and refused there if need be.
-/

namespace Rdf

open Text

/-- An outcome is a refusal exactly when there is something to blame, and it blames just that. -/
structure Refuses {α : Type} (outcome : Except WriteFault α) (blames : WriteFault → Prop) :
    Prop where
  iff : (∃ fault, outcome = .error fault) ↔ ∃ fault, blames fault
  blames : ∀ fault, outcome = .error fault → blames fault

/-! ### Refusals -/

theorem bind_eq_error {ε α β : Type} {step : Except ε α} {next : α → Except ε β} {fault : ε} :
    (step >>= next) = .error fault ↔
      step = .error fault ∨ ∃ value, step = .ok value ∧ next value = .error fault := by
  cases step <;> simp [bind, Except.bind]

namespace Refuses

variable {α β : Type} {outcome : Except WriteFault α} {p q : WriteFault → Prop}

theorem of_cases (herror : ∀ fault, outcome = .error fault → p fault)
    (hok : ∀ result, outcome = .ok result → ∀ fault, ¬ p fault) : Refuses outcome p := by
  refine ⟨⟨fun ⟨fault, h⟩ => ⟨fault, herror fault h⟩, fun ⟨fault, h⟩ => ?_⟩, herror⟩
  cases ho : outcome with
  | error found => exact ⟨found, rfl⟩
  | ok result => exact (hok result ho fault h).elim

theorem not_of_ok (h : Refuses outcome p) {result : α} (hok : outcome = .ok result)
    (fault : WriteFault) : ¬ p fault := by
  intro hp
  obtain ⟨found, herror⟩ := h.iff.2 ⟨fault, hp⟩
  rw [hok] at herror
  simp at herror

theorem ok (result : α) : Refuses (.ok result : Except WriteFault α) fun _ => False :=
  .of_cases (by simp) (by simp)

theorem congr (h : Refuses outcome p) (hiff : ∀ fault, p fault ↔ q fault) : Refuses outcome q :=
  .of_cases (fun fault herror => (hiff fault).1 (h.blames fault herror))
    fun _ hok fault hq => h.not_of_ok hok fault ((hiff fault).2 hq)

theorem bind {next : α → Except WriteFault β} (h : Refuses outcome p)
    (hnext : ∀ result, outcome = .ok result → Refuses (next result) q) :
    Refuses (outcome >>= next) fun fault => p fault ∨ q fault := by
  refine .of_cases (fun fault herror => ?_) fun last hok fault => ?_
  · obtain hstep | ⟨result, hresult, herror⟩ := bind_eq_error.1 herror
    · exact .inl (h.blames fault hstep)
    · exact .inr ((hnext result hresult).blames fault herror)
  · obtain ⟨result, hresult, hlast⟩ := bind_eq_ok.1 hok
    rintro (hp | hq)
    · exact h.not_of_ok hresult fault hp
    · exact (hnext result hresult).not_of_ok hlast fault hq

theorem map {next : α → β} (h : Refuses outcome p) :
    Refuses (outcome >>= fun result => pure (next result)) p :=
  (h.bind fun result _ => .ok (next result)).congr (by simp)

theorem mapM {f : α → Except WriteFault β} {r : α → WriteFault → Prop} {xs : List α}
    (h : ∀ x ∈ xs, Refuses (f x) (r x)) : Refuses (xs.mapM f) fun fault => ∃ x ∈ xs, r x fault := by
  induction xs with
  | nil => exact (Refuses.ok []).congr (by simp)
  | cons x xs ih =>
    obtain ⟨hfirst, hrest⟩ := List.forall_mem_cons.1 h
    rw [List.mapM_cons]
    exact (hfirst.bind fun _ _ => (ih hrest).map).congr (by simp)

end Refuses

/-! ### Terms -/

variable {t : Term} {l : Literal} {id : String} {fault : WriteFault}

namespace Term

end Term

namespace Spelling

end Spelling

variable {g : Graph}

namespace Turtle

variable {options : Options} {spaces : Spaces} {triples : List Triple} {chains : List Chain}

namespace Forest

end Forest

end Turtle

end Rdf

import Rdf.Graph.Basic

/-!
What insertion does to the triples of a graph.

The supply of labels and the order of the reserved ones play no part in it: a graph that triples
are added to holds them without repetition, in the order of their first appearance.
-/

namespace Rdf.Graph

variable {g : Graph} {t : Triple}

@[simp]
theorem see_triples (g : Graph) (id : String) : (g.see id).triples = g.triples := by
  by_cases h : g.hasSeen id = true <;> simp [see, h]

@[simp]
theorem foldl_see_triples (g : Graph) (ids : List String) :
    (ids.foldl see g).triples = g.triples := by
  induction ids generalizing g with
  | nil => rfl
  | cons id ids ih => rw [List.foldl_cons, ih, see_triples]

theorem see_of_mem {id : String} (h : id ∈ g.seen) : g.see id = g := by simp [see, hasSeen, h]

theorem foldl_see_of_subset {ids : List String} (h : ids ⊆ g.seen) : ids.foldl see g = g := by
  induction ids with
  | nil => rfl
  | cons id ids ih =>
    obtain ⟨hid, hids⟩ := List.cons_subset.1 h
    rw [List.foldl_cons, see_of_mem hid, ih hids]

/-- A triple of nodes that have been seen adds to the triples only. -/
theorem seen_add_of_subset (h : t.blankIds ⊆ g.seen) : (g.add t).seen = g.seen := by
  by_cases hhas : g.has t = true
  · simp [add, hhas]
  · simp [add, hhas, foldl_see_of_subset h]

theorem seen_addAll_of_subset {ts : List Triple} (h : ∀ t ∈ ts, t.blankIds ⊆ g.seen) :
    (g.addAll ts).seen = g.seen := by
  induction ts generalizing g with
  | nil => rfl
  | cons t ts ih =>
    obtain ⟨ht, hts⟩ := List.forall_mem_cons.1 h
    have hadd := seen_add_of_subset ht
    calc ((g.add t).addAll ts).seen = (g.add t).seen := ih (hadd ▸ hts)
      _ = g.seen := hadd

theorem triples_add (g : Graph) (t : Triple) :
    (g.add t).triples = if t.isIn g.triples then g.triples else g.triples ++ [t] := by
  have hhas : g.has t = t.isIn g.triples := rfl
  by_cases h : t.isIn g.triples = true <;> simp [add, hhas, h]

theorem mem_add (h : t.WellFormed) {u : Triple} :
    u ∈ (g.add t).triples ↔ u ∈ g.triples ∨ u = t := by
  rw [triples_add]
  split
  · next hin =>
    have ht := (Triple.isIn_iff_mem h).1 hin
    constructor
    · exact Or.inl
    · intro hu
      cases hu with
      | inl hu => exact hu
      | inr hu => exact hu ▸ ht
  · simp

theorem add_congr {g' : Graph} (h : g.triples = g'.triples) (t : Triple) :
    (g.add t).triples = (g'.add t).triples := by
  rw [triples_add, triples_add, h]

theorem addAll_congr {g' : Graph} (h : g.triples = g'.triples) (ts : List Triple) :
    (g.addAll ts).triples = (g'.addAll ts).triples := by
  induction ts generalizing g g' with
  | nil => exact h
  | cons t ts ih => exact ih (add_congr h t)

theorem triples_add_eraseDups {ts : List Triple} (hg : g.triples = ts.eraseDups)
    (ht : t.WellFormed) : (g.add t).triples = (ts ++ [t]).eraseDups := by
  have hin : t.isIn g.triples = true ↔ t ∈ ts := by
    rw [Triple.isIn_iff_mem ht, hg, List.mem_eraseDups]
  rw [triples_add, List.eraseDups_append, ← hg]
  by_cases h : t ∈ ts
  · simp [hin.2 h, List.removeAll, h]
  · simp [mt hin.1 h, List.removeAll, h, List.eraseDups_cons]

/-- The triples of a graph that triples are added to are those of their row, each at its first
place. -/
theorem triples_addAll {ts : List Triple} (h : ∀ t ∈ ts, t.WellFormed) :
    (addAll {} ts).triples = ts.eraseDups := by
  have hgo : ∀ (done : List Triple) (g : Graph), g.triples = done.eraseDups →
      (g.addAll ts).triples = (done ++ ts).eraseDups := by
    induction ts with
    | nil => simp [addAll]
    | cons t ts ih =>
      intro done g hg
      have hadd := triples_add_eraseDups hg (h t List.mem_cons_self)
      have hrest := ih (fun u hu => h u (List.mem_cons_of_mem t hu)) (done ++ [t]) _ hadd
      simpa [addAll] using hrest
  simpa using hgo [] {} rfl

end Rdf.Graph

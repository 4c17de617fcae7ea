import Rdf.Proofs.Graph.Minting
import Rdf.Proofs.Isomorphism.Renaming
import Rdf.Proofs.Turtle.Naming

/-!
Histories of graphs.

A history is a row of calls that change a graph, in any order, the refused ones among them. A graph
`Remembers` its history: every label that an event named is seen, and so are the labels of the
triples at hand, which is why a triple that is there already need not be looked at again. Labels
that a graph mints are therefore named by no earlier event.
-/

namespace Rdf.Graph

/-- A call that changes a graph, with its arguments as they are given. -/
inductive Call where
  | mint
  | reserve (id : Plain)
  | add (t : Given Triple)
  | addEach (ts : List (Given Triple))
  | erase (t : Given Triple)
  | bind (label : String) (iri : Given Iri)
  | setBase (base : Option (Given Iri))
  deriving DecidableEq, Repr

/-- What came of a call. -/
inductive Event where
  | minted (id : String)
  | reserved (id : Plain)
  | added (t : Triple)
  | erased (t : Given Triple)
  | bound (label : String)
  | based
  | refused (fault : Fault)
  deriving DecidableEq, Repr

/-- The labels of blank nodes that an event brought in. -/
def Event.names : Event → List String
  | minted id => [id]
  | reserved (.text id) => [id]
  | added t => t.blankIds
  | _ => []

/-- Adds triples one by one. The first that is refused ends the row, and those before it stay. -/
def addEach (g : Graph) : List (Given Triple) → Graph × List Event
  | [] => (g, [])
  | .plain value :: _ => (g, [.refused (.notTriple value.kindName)])
  | .proper t :: ts =>
    match g.addGiven (.proper t) with
    | .error fault => (g, [.refused fault])
    | .ok g =>
      let (g, events) := g.addEach ts
      (g, .added t :: events)

/-- The graph behind a call, and what came of the call. A refused call changes nothing. -/
def Call.run (g : Graph) : Call → Graph × List Event
  | mint =>
    let (id, g) := g.mint
    (g, [.minted id])
  | reserve id =>
    match g.reserve id with
    | .ok (_, g) => (g, [.reserved id])
    | .error fault => (g, [.refused fault])
  | add t => g.addEach [t]
  | addEach ts => g.addEach ts
  | erase t =>
    match g.eraseGiven t with
    | .ok g => (g, [.erased t])
    | .error fault => (g, [.refused fault])
  | bind label iri =>
    match g.bindGiven label iri with
    | .ok g => (g, [.bound label])
    | .error fault => (g, [.refused fault])
  | setBase base => (g.setBaseGiven base, [.based])

def history (g : Graph) : List Call → Graph × List Event
  | [] => (g, [])
  | call :: calls =>
    let (g, events) := call.run g
    let (g, later) := g.history calls
    (g, events ++ later)

example : (history {} [.reserve (.text "auto0"), .mint, .reserve (.text ""), .mint]).2 =
    [.reserved (.text "auto0"), .minted "auto1", .refused .blankIdInvalid, .minted "auto2"] := by
  decide

/-- The search for a free number, without a bound on its tries, ends at `found`. -/
inductive Search (seen : List String) : Nat → Nat → Prop
  | free {number : Nat} (h : mintedLabel number ∉ seen) : Search seen number number
  | next {number found : Nat} (h : mintedLabel number ∈ seen)
      (rest : Search seen (number + 1) found) : Search seen number found

/-- No minted label was named by an earlier event. -/
def Fresh (events : List Event) : Prop :=
  events.Pairwise fun earlier later => ∀ id, later = .minted id → id ∉ earlier.names

/-- What the events named is seen, and so are the labels of the triples at hand. -/
structure Remembers (g : Graph) (events : List Event) : Prop where
  names : ∀ event ∈ events, event.names ⊆ g.seen
  triples : ∀ t ∈ g.triples, t.blankIds ⊆ g.seen

variable {g g1 : Graph} {past : List Event} {t : Triple}

/-! ### The search -/

/-- A bounded search that ends at a free number is one without a bound. -/
theorem search_freeNumber {seen : List String} {tries number : Nat}
    (h : mintedLabel (freeNumber seen tries number) ∉ seen) :
    Search seen number (freeNumber seen tries number) := by
  induction tries generalizing number with
  | zero => exact .free h
  | succ tries ih =>
    by_cases hseen : mintedLabel number ∈ seen
    · have hnext : freeNumber seen (tries + 1) number = freeNumber seen tries (number + 1) := by
        simp [freeNumber, hseen]
      rw [hnext] at h ⊢
      exact .next hseen (ih h)
    · have hfound : freeNumber seen (tries + 1) number = number := by simp [freeNumber, hseen]
      rw [hfound]
      exact .free hseen

/-- There is one end of a search. -/
theorem Search.unique {seen : List String} {number m n : Nat} (hm : Search seen number m)
    (hn : Search seen number n) : m = n := by
  induction hm with
  | free hfree =>
    cases hn with
    | free => rfl
    | next hseen => exact absurd hseen hfree
  | next hseen _ ih =>
    cases hn with
    | free hfree => exact absurd hseen hfree
    | next _ hrest => exact ih hrest

/-- Minting ends, with the label of the number at which the search ends. -/
theorem exists_search (g : Graph) : ∃ found, Search g.seen g.nextNumber found ∧
    g.mint = (mintedLabel found,
      { g with nextNumber := found + 1, seen := g.seen ++ [mintedLabel found] }) :=
  ⟨_, search_freeNumber (freeNumber_free g.seen g.nextNumber), rfl⟩

/-! ### What a graph remembers -/

theorem Remembers.of_seen (h : Remembers g past) (hseen : g.seen ⊆ g1.seen)
    (htriples : g1.triples ⊆ g.triples) : Remembers g1 past :=
  ⟨fun event he => List.Subset.trans (h.names event he) hseen,
    fun t ht => List.Subset.trans (h.triples t (htriples ht)) hseen⟩

theorem Remembers.append (h : Remembers g past) (events : List Event)
    (hnames : ∀ event ∈ events, event.names ⊆ g.seen) : Remembers g (past ++ events) := by
  refine ⟨fun event he => ?_, h.triples⟩
  cases List.mem_append.1 he with
  | inl hold => exact h.names event hold
  | inr hnew => exact hnames event hnew

theorem Remembers.mint (h : Remembers g past) :
    Remembers g.mint.2 (past ++ [.minted g.mint.1]) := by
  have hkept : Remembers g.mint.2 past :=
    h.of_seen (List.subset_append_left g.seen [g.mint.1]) (List.Subset.refl _)
  exact hkept.append [.minted g.mint.1] (by simp [Graph.mint, Event.names])

theorem subset_seen_foldl_see (g : Graph) (ids : List String) :
    ids ⊆ (ids.foldl see g).seen := by
  induction ids generalizing g with
  | nil => exact List.nil_subset _
  | cons id ids ih =>
    exact List.cons_subset.2
      ⟨Turtle.seen_foldl_see (g.see id) ids (Turtle.seen_see g id).2, ih (g.see id)⟩

/-- Triples that count as the same have the same blank nodes, also if they hold plain values. -/
theorem blankIds_of_key_eq {u : Triple} (h : u.key = t.key) : u.blankIds = t.blankIds := by
  have hblank : ∀ term : Term, term.key.blankId? = term.blankId? := fun term => by
    cases term <;> rfl
  have hkey : ∀ v : Triple, v.key.blankIds = v.blankIds := fun v => by
    simp [Triple.blankIds, Triple.key, hblank, List.filterMap_cons]
  rw [← hkey u, h, hkey]

theorem Remembers.add (h : Remembers g past) (t : Triple) :
    Remembers (g.add t) (past ++ [.added t]) := by
  have hids : t.blankIds ⊆ (g.add t).seen := by
    by_cases hhas : g.has t = true
    · -- The triple is skipped, and the one in its place has seen labels.
      obtain ⟨u, hu, hkey⟩ : ∃ u ∈ g.triples, u.key = t.key := by
        simpa [has, Triple.isIn] using hhas
      simpa [Graph.add, hhas, ← blankIds_of_key_eq hkey] using h.triples u hu
    · simpa [Graph.add, hhas] using subset_seen_foldl_see g t.blankIds
  have hseen := Turtle.seen_add g t
  refine ⟨fun event he => ?_, fun u hu => ?_⟩
  · cases List.mem_append.1 he with
    | inl hold => exact List.Subset.trans (h.names event hold) hseen
    | inr hnew => exact List.mem_singleton.1 hnew ▸ hids
  · rw [triples_add] at hu
    split at hu
    · exact List.Subset.trans (h.triples u hu) hseen
    · cases List.mem_append.1 hu with
      | inl hold => exact List.Subset.trans (h.triples u hold) hseen
      | inr hnew => exact List.mem_singleton.1 hnew ▸ hids

theorem Remembers.refused (h : Remembers g past) (fault : Fault) :
    Remembers g (past ++ [.refused fault]) :=
  h.append [.refused fault] (by simp [Event.names])

theorem Remembers.addEach (h : Remembers g past) (ts : List (Given Triple)) :
    Remembers (g.addEach ts).1 (past ++ (g.addEach ts).2) := by
  induction ts generalizing g past with
  | nil => simpa [Graph.addEach] using h
  | cons given ts ih =>
    cases given with
    | plain value => exact h.refused _
    | proper t =>
      cases hkey : t.notKey? with
      | some value => simpa [Graph.addEach, addGiven, hkey] using h.refused _
      | none => simpa [Graph.addEach, addGiven, hkey] using ih (h.add t)

/-! ### One call -/

/-- A call that reserves a label and succeeds was given a text. -/
theorem reserve_eq_ok {id : Plain} {node : Term} (h : g.reserve id = .ok (node, g1)) :
    ∃ label, id = .text label ∧ node = .blank label ∧ g1 = g.see label := by
  cases id with
  | text label =>
    by_cases hempty : label = ""
    · simp [reserve, Term.ofBlankId, hempty, Bind.bind, Except.bind] at h
    · have hpair : Term.blank label = node ∧ g.see label = g1 := by
        simpa [reserve, Term.ofBlankId, hempty, Bind.bind, Except.bind, pure, Except.pure,
          Term.blankId?] using h
      exact ⟨label, rfl, hpair.1.symm, hpair.2.symm⟩
  | _ => simp [reserve, Term.ofBlankId, Bind.bind, Except.bind] at h

theorem eraseGiven_eq_ok {given : Given Triple} (h : g.eraseGiven given = .ok g1) :
    g1.seen = g.seen ∧ g1.triples ⊆ g.triples := by
  have hsame : g.seen = g.seen ∧ g.triples ⊆ g.triples := ⟨rfl, List.Subset.refl _⟩
  unfold eraseGiven at h
  split at h
  · exact Except.ok.inj h ▸ hsame
  · split at h
    · cases h
    · exact Except.ok.inj h ▸ hsame
    · next t _ =>
      obtain rfl := Except.ok.inj h
      exact ⟨rfl, List.eraseP_subset⟩

theorem Remembers.run (h : Remembers g past) (call : Call) :
    Remembers (call.run g).1 (past ++ (call.run g).2) := by
  cases call with
  | mint => exact h.mint
  | reserve id =>
    cases hr : g.reserve id with
    | error fault => simpa [Call.run, hr] using h.refused fault
    | ok answer =>
      obtain ⟨label, rfl, -, hg⟩ := reserve_eq_ok hr
      have hsee := Turtle.seen_see g label
      have hkept : Remembers (g.see label) past :=
        h.of_seen hsee.1 (see_triples g label ▸ List.Subset.refl _)
      have hnamed := hkept.append [.reserved (.text label)]
        (by simpa [Event.names] using hsee.2)
      simpa [Call.run, hr, hg] using hnamed
  | add t => exact h.addEach [t]
  | addEach ts => exact h.addEach ts
  | erase t =>
    cases hr : g.eraseGiven t with
    | error fault => simpa [Call.run, hr] using h.refused fault
    | ok g1 =>
      obtain ⟨hseen, htriples⟩ := eraseGiven_eq_ok hr
      have hkept := h.of_seen (hseen ▸ List.Subset.refl _) htriples
      simpa [Call.run, hr] using hkept.append [.erased t] (by simp [Event.names])
  | bind label iri =>
    cases iri with
    | plain value => exact h.refused _
    | proper iri =>
      have hkept : Remembers (g.bind label iri) past := ⟨h.names, h.triples⟩
      exact hkept.append [.bound label] (by simp [Event.names])
  | setBase base =>
    have hkept : Remembers (g.setBaseGiven base) past := by
      cases base with
      | none => exact ⟨h.names, h.triples⟩
      | some given => cases given <;> exact ⟨h.names, h.triples⟩
    exact hkept.append [.based] (by simp [Event.names])

/-- Adding mints nothing. -/
theorem minted_not_mem_addEach (g : Graph) (ts : List (Given Triple)) (id : String) :
    .minted id ∉ (g.addEach ts).2 := by
  induction ts generalizing g with
  | nil => simp [addEach]
  | cons given ts ih =>
    cases given with
    | plain value => simp [addEach]
    | proper t => cases hkey : t.notKey? <;> simp [addEach, addGiven, hkey, ih]

/-- What a call mints is not seen before, and the only thing that comes of the call. -/
theorem run_of_minted {call : Call} {id : String} (h : .minted id ∈ (call.run g).2) :
    (call.run g).2 = [.minted id] ∧ id ∉ g.seen := by
  cases call with
  | mint =>
    obtain rfl : id = g.mint.1 := by simpa [Call.run] using h
    exact ⟨rfl, mint_not_mem g⟩
  | reserve given => cases hr : g.reserve given <;> simp [Call.run, hr] at h
  | add t => exact absurd h (minted_not_mem_addEach g [t] id)
  | addEach ts => exact absurd h (minted_not_mem_addEach g ts id)
  | erase t => cases hr : g.eraseGiven t <;> simp [Call.run, hr] at h
  | bind label iri => cases hr : g.bindGiven label iri <;> simp [Call.run, hr] at h
  | setBase base => simp [Call.run] at h

theorem Remembers.fresh_run (h : Remembers g past) (hfresh : Fresh past) (call : Call) :
    Fresh (past ++ (call.run g).2) := by
  refine List.pairwise_append.2 ⟨hfresh, ?_, fun earlier he later hl id hid hnamed => ?_⟩
  · by_cases hmints : ∃ id, .minted id ∈ (call.run g).2
    · obtain ⟨id, hid⟩ := hmints
      rw [(run_of_minted hid).1]
      exact List.pairwise_singleton _ _
    · refine List.pairwise_of_forall_mem_list fun earlier _ later hl id hid => ?_
      exact absurd ⟨id, hid ▸ hl⟩ hmints
  · exact (run_of_minted (hid ▸ hl)).2 (h.names earlier he hnamed)

/-! ### Rows of calls -/

theorem Remembers.history (h : Remembers g past) (hfresh : Fresh past) (calls : List Call) :
    Remembers (g.history calls).1 (past ++ (g.history calls).2) ∧
      Fresh (past ++ (g.history calls).2) := by
  induction calls generalizing g past with
  | nil => simpa [Graph.history] using ⟨h, hfresh⟩
  | cons call calls ih =>
    simpa [Graph.history] using ih (h.run call) (h.fresh_run hfresh call)

theorem remembers_empty (base : Option Iri) : Remembers { base } [] :=
  ⟨by simp, by simp⟩

/-- Whatever calls an empty graph has met, no label that it minted was named by an earlier event.
The next label is not among the named ones either, and the search for it ends. -/
theorem fresh_history (base : Option Iri) (calls : List Call) :
    let (g, events) := history { base } calls
    Fresh events ∧ ∃ found, Search g.seen g.nextNumber found ∧ g.mint.1 = mintedLabel found ∧
      ∀ event ∈ events, mintedLabel found ∉ event.names := by
  obtain ⟨hremembers, hfresh⟩ := (remembers_empty base).history List.Pairwise.nil calls
  obtain ⟨found, hsearch, hmint⟩ := exists_search (history { base } calls).1
  refine ⟨hfresh, found, hsearch, by rw [hmint], fun event he hnamed => ?_⟩
  have hunseen := mint_not_mem (history { base } calls).1
  rw [hmint] at hunseen
  exact hunseen (hremembers.names event he hnamed)

end Rdf.Graph

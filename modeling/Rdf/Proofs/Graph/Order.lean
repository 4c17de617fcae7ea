import Mathlib.Data.List.Induction
import Rdf.Proofs.Graph.History

/-!
A graph as a set in the order of insertion.

The events of a history say which triples a graph holds, and where each was founded: at its earliest
addition since its last removal. A graph `Tells` its events when it has the triples that they hold
and no others, once each, in the order of the places where they were founded. Whatever is called,
the graph goes on to tell its events.
-/

namespace Rdf.Graph

/-- The event adds the triple, or one that counts as the same. -/
def Event.Adds (t : Triple) : Event → Prop
  | added u => u.key = t.key
  | _ => False

/-- The event removes the triple, or one that counts as the same. -/
def Event.Removes (t : Triple) : Event → Prop
  | erased (.proper u) => u.key = t.key
  | _ => False

/-- The triple was added after it was last removed. -/
def Held (events : List Event) (t : Triple) : Prop :=
  ∃ before event later, events = before ++ event :: later ∧ event.Adds t ∧
    ∀ other ∈ later, ¬ other.Removes t

/-- The triple was added at a place in the row of events, where it was not held before, and was not
removed afterwards. -/
def Founds (events : List Event) (place : Nat) (t : Triple) : Prop :=
  ∃ before later, events = before ++ .added t :: later ∧ before.length = place ∧
    ¬ Held before t ∧ ∀ other ∈ later, ¬ other.Removes t

/-- The triples of a graph are those that its events hold, each of them once, in the order in which
they were founded. -/
structure Tells (events : List Event) (g : Graph) : Prop where
  nodup : (g.triples.map Triple.key).Nodup
  held : ∀ t, g.has t = true ↔ Held events t
  founded : ∀ t ∈ g.triples, ∃ place, Founds events place t
  ordered : g.triples.Pairwise fun t u =>
    ∀ place place', Founds events place t → Founds events place' u → place < place'

/-- The binding of a namespace that a call asks for. -/
def Call.binding? : Call → Option (String × Iri)
  | bind label (.proper iri) => some (label, iri)
  | _ => none

/-- What a refused call leaves of a graph: all of it. Only of a row of triples those are kept that
come before the refused one, and the next label stays the same unless one of them has it. -/
def Leaves (g : Graph) (call : Call) (fault : Fault) : Prop :=
  call.run g = (g, [.refused fault]) ∨
    ∃ kept given after, call = .addEach (kept.map .proper ++ given :: after) ∧
      call.run g = (g.addAll kept, kept.map .added ++ [.refused fault]) ∧
      (g.addAll kept).addGiven given = .error fault ∧
      (g.addAll kept).namespaces = g.namespaces ∧ (g.addAll kept).base = g.base ∧
      (g.addAll kept).strayBase = g.strayBase ∧
      ((g.addAll kept).mint.1 = g.mint.1 ∨ ∃ t ∈ kept, g.mint.1 ∈ t.blankIds)

variable {g g1 : Graph} {past : List Event} {event : Event} {t u : Triple} {place : Nat}

/-! ### One event more -/

theorem concat_eq_append_cons {α : Type} {past before later : List α} {last a : α} :
    past ++ [last] = before ++ a :: later ↔
      later = [] ∧ last = a ∧ past = before ∨
        ∃ rest, later = rest ++ [last] ∧ past = before ++ a :: rest := by
  constructor
  · intro h
    obtain rfl | ⟨rest, other, rfl⟩ := List.eq_nil_or_concat later
    · obtain ⟨rfl, hlast⟩ := List.append_inj' h rfl
      exact .inl ⟨rfl, List.singleton_inj.1 hlast, rfl⟩
    · have hsplit : past ++ [last] = (before ++ a :: rest) ++ [other] := by simpa using h
      obtain ⟨hpast, hlast⟩ := List.append_inj' hsplit rfl
      obtain rfl := List.singleton_inj.1 hlast
      exact .inr ⟨rest, List.concat_eq_append, hpast⟩
  · rintro (⟨rfl, rfl, rfl⟩ | ⟨rest, rfl, rfl⟩) <;> simp

theorem Event.removes_congr (h : u.key = t.key) : event.Removes u ↔ event.Removes t := by
  cases event with
  | erased given => cases given <;> simp [Removes, h]
  | _ => exact Iff.rfl

theorem held_concat :
    Held (past ++ [event]) t ↔ event.Adds t ∨ Held past t ∧ ¬ event.Removes t := by
  constructor
  · rintro ⟨before, added, later, hsplit, hadds, hlater⟩
    obtain ⟨-, rfl, -⟩ | ⟨rest, rfl, rfl⟩ := concat_eq_append_cons.1 hsplit
    · exact .inl hadds
    · obtain ⟨hrest, hlast⟩ := List.forall_mem_append.1 hlater
      exact .inr ⟨⟨before, added, rest, rfl, hadds, hrest⟩, hlast event List.mem_cons_self⟩
  · rintro (hadds | ⟨⟨before, added, rest, rfl, hadds, hrest⟩, hlast⟩)
    · exact ⟨past, event, [], rfl, hadds, List.forall_mem_nil _⟩
    · exact ⟨before, added, rest ++ [event], by simp, hadds,
        List.forall_mem_append.2 ⟨hrest, List.forall_mem_singleton.2 hlast⟩⟩

theorem founds_concat :
    Founds (past ++ [event]) place t ↔
      event = .added t ∧ place = past.length ∧ ¬ Held past t ∨
        Founds past place t ∧ ¬ event.Removes t := by
  constructor
  · rintro ⟨before, later, hsplit, rfl, hnew, hlater⟩
    obtain ⟨-, rfl, rfl⟩ | ⟨rest, rfl, rfl⟩ := concat_eq_append_cons.1 hsplit
    · exact .inl ⟨rfl, rfl, hnew⟩
    · obtain ⟨hrest, hlast⟩ := List.forall_mem_append.1 hlater
      exact .inr ⟨⟨before, rest, rfl, rfl, hnew, hrest⟩, hlast event List.mem_cons_self⟩
  · rintro (⟨rfl, rfl, hnew⟩ | ⟨⟨before, rest, rfl, rfl, hnew, hrest⟩, hlast⟩)
    · exact ⟨past, [], rfl, rfl, hnew, List.forall_mem_nil _⟩
    · exact ⟨before, rest ++ [event], by simp, rfl, hnew,
        List.forall_mem_append.2 ⟨hrest, List.forall_mem_singleton.2 hlast⟩⟩

theorem Founds.held (h : Founds past place t) : Held past t := by
  obtain ⟨before, later, rfl, -, -, hlater⟩ := h
  exact ⟨before, .added t, later, rfl, rfl, hlater⟩

theorem Founds.lt (h : Founds past place t) : place < past.length := by
  obtain ⟨before, later, rfl, rfl, -, -⟩ := h
  simp

/-! ### Adding and removing -/

theorem has_iff : g.has t = true ↔ ∃ u ∈ g.triples, u.key = t.key := by
  simp [has, Triple.isIn]

/-- An event that adds nothing may take triples away. -/
theorem Tells.drop (h : Tells past g) (hadds : ∀ t, ¬ event.Adds t)
    (hsub : g1.triples.Sublist g.triples)
    (hmem : ∀ u, u ∈ g1.triples ↔ u ∈ g.triples ∧ ¬ event.Removes u) :
    Tells (past ++ [event]) g1 := by
  have hfounds : ∀ place t, Founds (past ++ [event]) place t → Founds past place t := by
    intro place t hf
    obtain ⟨rfl, -⟩ | ⟨hf, -⟩ := founds_concat.1 hf
    · exact absurd rfl (hadds t)
    · exact hf
  refine ⟨h.nodup.sublist (hsub.map _), fun t => ?_, fun t ht => ?_, ?_⟩
  · rw [held_concat, ← h.held, has_iff, has_iff]
    constructor
    · rintro ⟨u, hu, hkey⟩
      obtain ⟨hold, hremoves⟩ := (hmem u).1 hu
      exact .inr ⟨⟨u, hold, hkey⟩, mt (Event.removes_congr hkey).2 hremoves⟩
    · rintro (hadd | ⟨⟨u, hu, hkey⟩, hremoves⟩)
      · exact absurd hadd (hadds t)
      · exact ⟨u, (hmem u).2 ⟨hu, mt (Event.removes_congr hkey).1 hremoves⟩, hkey⟩
  · obtain ⟨hold, hremoves⟩ := (hmem t).1 ht
    obtain ⟨place, hplace⟩ := h.founded t hold
    exact ⟨place, founds_concat.2 (.inr ⟨hplace, hremoves⟩)⟩
  · refine (h.ordered.sublist hsub).imp fun hlt place place' ht hu => ?_
    exact hlt place place' (hfounds _ _ ht) (hfounds _ _ hu)

/-- Nothing is said of triples by an event that neither adds nor removes any. -/
theorem Tells.silent (h : Tells past g) (hevent : ∀ t, ¬ event.Adds t ∧ ¬ event.Removes t)
    (hsame : g1.triples = g.triples) : Tells (past ++ [event]) g1 :=
  h.drop (fun t => (hevent t).1) (hsame ▸ List.Sublist.refl _) fun u => by
    simp [hsame, (hevent u).2]

theorem Tells.refused (h : Tells past g) (fault : Fault) : Tells (past ++ [.refused fault]) g :=
  h.silent (fun _ => ⟨id, id⟩) rfl

theorem Tells.add (h : Tells past g) (t : Triple) : Tells (past ++ [.added t]) (g.add t) := by
  have hheld : ∀ u, Held (past ++ [.added t]) u ↔ t.key = u.key ∨ g.has u = true := by
    intro u
    rw [held_concat, h.held]
    exact or_congr_right (and_iff_left id)
  -- what was founded before keeps its place
  have hkept : ∀ {place u}, Founds past place u → Founds (past ++ [.added t]) place u :=
    fun hu => founds_concat.2 (.inr ⟨hu, id⟩)
  have hold : ∀ {place u}, u ∈ g.triples → Founds (past ++ [.added t]) place u →
      Founds past place u := by
    intro place u hu hf
    obtain ⟨-, -, hnew⟩ | ⟨hf, -⟩ := founds_concat.1 hf
    · exact absurd ((h.held u).1 (has_iff.2 ⟨u, hu, rfl⟩)) hnew
    · exact hf
  have hordered : g.triples.Pairwise fun u v => ∀ place place',
      Founds (past ++ [.added t]) place u → Founds (past ++ [.added t]) place' v →
        place < place' :=
    h.ordered.imp_of_mem fun hu hv hlt place place' hfu hfv =>
      hlt place place' (hold hu hfu) (hold hv hfv)
  by_cases hhas : g.has t = true
  · have hsame : g.add t = g := by simp [Graph.add, hhas]
    rw [hsame]
    refine ⟨h.nodup, fun u => ?_, fun u hu => (h.founded u hu).imp fun _ => hkept, hordered⟩
    rw [hheld]
    refine ⟨Or.inr, fun hu => hu.elim (fun hkey => ?_) id⟩
    obtain ⟨v, hv, hvkey⟩ := has_iff.1 hhas
    exact has_iff.2 ⟨v, hv, hvkey.trans hkey⟩
  · have htriples : (g.add t).triples = g.triples ++ [t] := by
      rw [triples_add]
      exact if_neg hhas
    have hnew : ¬ Held past t := mt (h.held t).2 hhas
    constructor
    · rw [htriples, List.map_append, List.nodup_append]
      refine ⟨h.nodup, List.nodup_singleton _, fun key hkey other hother he => hhas ?_⟩
      obtain ⟨u, hu, rfl⟩ := List.mem_map.1 hkey
      obtain rfl := List.mem_singleton.1 hother
      exact has_iff.2 ⟨u, hu, he⟩
    · intro u
      rw [hheld, has_iff, htriples, has_iff]
      simp [or_and_right, exists_or, or_comm]
    · rw [htriples]
      refine List.forall_mem_append.2 ⟨fun u hu => (h.founded u hu).imp fun _ => hkept, ?_⟩
      exact List.forall_mem_singleton.2 ⟨past.length, founds_concat.2 (.inl ⟨rfl, rfl, hnew⟩)⟩
    · rw [htriples, List.pairwise_append]
      refine ⟨hordered, List.pairwise_singleton _ _, fun u hu v hv place place' hfu hfv => ?_⟩
      obtain rfl := List.mem_singleton.1 hv
      obtain ⟨-, rfl, -⟩ | ⟨hfv, -⟩ := founds_concat.1 hfv
      · exact (hold hu hfu).lt
      · exact absurd hfv.held hnew

theorem Tells.addEach (h : Tells past g) (ts : List (Given Triple)) :
    Tells (past ++ (g.addEach ts).2) (g.addEach ts).1 := by
  induction ts generalizing g past with
  | nil => simpa [Graph.addEach] using h
  | cons given ts ih =>
    cases given with
    | plain value => exact h.refused _
    | proper t =>
      cases hkey : t.notKey? with
      | some value => simpa [Graph.addEach, addGiven, hkey] using h.refused _
      | none => simpa [Graph.addEach, addGiven, hkey] using ih (h.add t)

/-- Where no two triples count as the same, all that count as a given one are removed. -/
theorem triples_erase (h : (g.triples.map Triple.key).Nodup) (t : Triple) :
    (g.erase t).triples = g.triples.filter (·.key ≠ t.key) := by
  unfold erase
  generalize g.triples = triples at h ⊢
  induction triples with
  | nil => rfl
  | cons u triples ih =>
    obtain ⟨hu, hrest⟩ := List.nodup_cons.1 h
    by_cases hkey : u.key = t.key
    · have hall : ∀ v ∈ triples, v.key ≠ t.key := fun v hv he =>
        hu (List.mem_map.2 ⟨v, hv, he.trans hkey.symm⟩)
      simpa [hkey, List.eraseP_cons] using (List.filter_eq_self.2 (by simpa using hall)).symm
    · simpa [hkey, List.eraseP_cons] using ih hrest

theorem Tells.erase (h : Tells past g) {given : Given Triple} (he : g.eraseGiven given = .ok g1) :
    Tells (past ++ [.erased given]) g1 := by
  unfold eraseGiven at he
  split at he
  · next hempty =>
    obtain rfl := Except.ok.inj he
    have hnil : g.triples = [] := List.isEmpty_iff.1 hempty
    exact h.drop (fun _ => id) (List.Sublist.refl _) fun u => by simp [hnil]
  · split at he
    · cases he
    · obtain rfl := Except.ok.inj he
      exact h.silent (fun _ => ⟨id, id⟩) rfl
    · next t _ =>
      obtain rfl := Except.ok.inj he
      have htriples := triples_erase h.nodup t
      refine h.drop (fun _ => id) (htriples ▸ List.filter_sublist) fun u => ?_
      simp only [htriples, List.mem_filter, decide_eq_true_eq, Event.Removes]
      exact and_congr_right' (not_congr eq_comm)

theorem Tells.run (h : Tells past g) (call : Call) :
    Tells (past ++ (call.run g).2) (call.run g).1 := by
  cases call with
  | mint => exact h.silent (fun _ => ⟨id, id⟩) rfl
  | reserve given =>
    cases hr : g.reserve given with
    | error fault => simpa only [Call.run, hr] using h.refused fault
    | ok answer =>
      obtain ⟨label, rfl, -, hg⟩ := reserve_eq_ok hr
      simp only [Call.run, hr, hg]
      exact h.silent (fun _ => ⟨id, id⟩) (see_triples g label)
  | add t => exact h.addEach [t]
  | addEach ts => exact h.addEach ts
  | erase given =>
    cases hr : g.eraseGiven given with
    | error fault => simpa only [Call.run, hr] using h.refused fault
    | ok g1 => simpa only [Call.run, hr] using h.erase hr
  | bind label iri =>
    cases iri <;> exact h.silent (fun _ => ⟨id, id⟩) rfl
  | setBase base =>
    refine h.silent (fun _ => ⟨id, id⟩) ?_
    cases base with
    | none => rfl
    | some given => cases given <;> rfl

theorem Tells.history (h : Tells past g) (calls : List Call) :
    Tells (past ++ (g.history calls).2) (g.history calls).1 := by
  induction calls generalizing g past with
  | nil => simpa [Graph.history] using h
  | cons call calls ih => simpa [Graph.history] using ih (h.run call)

theorem tells_empty (base : Option (Given Iri)) : Tells [] (setBaseGiven {} base) := by
  have htriples : (setBaseGiven {} base).triples = [] := by
    cases base with
    | none => rfl
    | some given => cases given <;> rfl
  refine ⟨by simp [htriples], fun t => ?_, by simp [htriples], by simp [htriples]⟩
  rw [has_iff, htriples]
  refine iff_of_false (by simp) ?_
  rintro ⟨before, event, later, hsplit, -⟩
  simp at hsplit

/-! ### Namespaces -/

/-- The table behind a binding. -/
def bindEntry (spaces : List (String × Iri)) (entry : String × Iri) : List (String × Iri) :=
  bindIn entry.1 entry.2 spaces

theorem labels_bindIn (label : String) (iri : Iri) (spaces : List (String × Iri)) :
    (bindIn label iri spaces).map (·.1) =
      if label ∈ spaces.map (·.1) then spaces.map (·.1) else spaces.map (·.1) ++ [label] := by
  induction spaces with
  | nil => rfl
  | cons space spaces ih =>
    by_cases hs : space.1 = label
    · simp [bindIn, hs]
    · rw [bindIn, if_neg hs, List.map_cons, ih]
      by_cases hmem : label ∈ spaces.map (·.1) <;> simp_all [Ne.symm hs]

theorem lookup_entry (entry : String × Iri) (spaces : List (String × Iri)) (label : String) :
    (entry :: spaces).lookup label =
      if label = entry.1 then some entry.2 else spaces.lookup label := by
  obtain ⟨name, value⟩ := entry
  by_cases hl : label = name
  · simp [hl]
  · simp [List.lookup_cons, beq_false_of_ne hl, hl]

theorem lookup_bindIn (label other : String) (iri : Iri) (spaces : List (String × Iri)) :
    (bindIn label iri spaces).lookup other =
      if other = label then some iri else spaces.lookup other := by
  induction spaces with
  | nil => exact lookup_entry (label, iri) [] other
  | cons space spaces ih =>
    by_cases hs : space.1 = label
    · rw [bindIn, if_pos hs, lookup_entry, lookup_entry, hs]
      split <;> rfl
    · rw [bindIn, if_neg hs, lookup_entry, lookup_entry, ih]
      -- the label of the entry in front is not the one that is bound
      by_cases ho : other = space.1 <;> simp [ho, hs]

/-- Labels stand in the order in which they were first bound, each with what it was last bound
to. -/
theorem foldl_bindEntry (entries : List (String × Iri)) :
    (entries.foldl bindEntry []).map (·.1) = (entries.map (·.1)).eraseDups ∧
      ∀ label, (entries.foldl bindEntry []).lookup label = entries.reverse.lookup label := by
  induction entries using List.reverseRecOn with
  | nil => exact ⟨rfl, fun _ => rfl⟩
  | append_singleton entries entry ih =>
    obtain ⟨hlabels, hlookup⟩ := ih
    rw [List.foldl_concat, bindEntry]
    constructor
    · rw [labels_bindIn, hlabels, List.map_append, List.map_singleton, List.eraseDups_append]
      by_cases hmem : entry.1 ∈ entries.map (·.1) <;>
        simp_all [List.removeAll, List.eraseDups_cons]
    · intro label
      rw [lookup_bindIn, hlookup, List.reverse_concat, lookup_entry]

theorem namespaces_addEach (g : Graph) (ts : List (Given Triple)) :
    (g.addEach ts).1.namespaces = g.namespaces := by
  induction ts generalizing g with
  | nil => rfl
  | cons given ts ih =>
    cases given with
    | plain value => rfl
    | proper t =>
      cases hkey : t.notKey? with
      | some value => simp [addEach, addGiven, hkey]
      | none => simpa [addEach, addGiven, hkey] using (ih (g.add t)).trans (Turtle.scope_add g t).2

theorem namespaces_run (g : Graph) (call : Call) :
    (call.run g).1.namespaces = call.binding?.toList.foldl bindEntry g.namespaces := by
  cases call with
  | mint => rfl
  | reserve given =>
    cases hr : g.reserve given with
    | error fault => simp [Call.run, hr, Call.binding?]
    | ok answer =>
      obtain ⟨label, rfl, -, hg⟩ := reserve_eq_ok hr
      simpa [Call.run, hr, hg, Call.binding?] using (Turtle.scope_foldl_see g [label]).2
  | add t => exact namespaces_addEach g [t]
  | addEach ts => exact namespaces_addEach g ts
  | erase given =>
    cases hr : g.eraseGiven given with
    | error fault => simp [Call.run, hr, Call.binding?]
    | ok g1 =>
      have hsame : g1.namespaces = g.namespaces := by
        unfold eraseGiven at hr
        split at hr
        · exact Except.ok.inj hr ▸ rfl
        · split at hr
          · cases hr
          · exact Except.ok.inj hr ▸ rfl
          · exact Except.ok.inj hr ▸ rfl
      simpa [Call.run, hr, Call.binding?] using hsame
  | bind label iri => cases iri <;> rfl
  | setBase base =>
    cases base with
    | none => rfl
    | some given => cases given <;> rfl

theorem namespaces_history (g : Graph) (calls : List Call) :
    (g.history calls).1.namespaces =
      (calls.filterMap Call.binding?).foldl bindEntry g.namespaces := by
  induction calls generalizing g with
  | nil => rfl
  | cons call calls ih =>
    rw [history, ih, namespaces_run, ← List.foldl_append]
    cases hb : call.binding? <;> simp [hb]

/-! ### Refused calls -/

/-- A search that ends at a number ends there if more labels are seen, as long as its own is not. -/
theorem Search.mono {seen seen' : List String} {number found : Nat}
    (h : Search seen number found) (hsub : seen ⊆ seen') (hfree : mintedLabel found ∉ seen') :
    Search seen' number found := by
  induction h with
  | free _ => exact .free hfree
  | next hseen _ ih => exact .next (hsub hseen) (ih hfree)

/-- Adding changes the triples and the labels that are seen, and nothing else. -/
theorem addAll_eq (g : Graph) (ts : List Triple) :
    g.addAll ts = { g with triples := (g.addAll ts).triples, seen := (g.addAll ts).seen } := by
  have hsee : ∀ (g : Graph) (ids : List String),
      ids.foldl see g = { g with seen := (ids.foldl see g).seen } := by
    intro g ids
    induction ids generalizing g with
    | nil => rfl
    | cons id ids ih =>
      rw [List.foldl_cons, ih]
      by_cases h : g.hasSeen id = true <;> simp [see, h]
  have hadd : ∀ (g : Graph) (t : Triple),
      g.add t = { g with triples := (g.add t).triples, seen := (g.add t).seen } := by
    intro g t
    by_cases h : g.has t = true
    · simp [add, h]
    · simp only [add, h]
      rw [hsee]
      rfl
  induction ts generalizing g with
  | nil => rfl
  | cons t ts ih =>
    have hcons : g.addAll (t :: ts) = (g.add t).addAll ts := rfl
    rw [hcons, ih, hadd]

theorem mem_seen_foldl_see {ids : List String} {id : String} (h : id ∈ (ids.foldl see g).seen) :
    id ∈ g.seen ∨ id ∈ ids := by
  induction ids generalizing g with
  | nil => exact .inl h
  | cons first ids ih =>
    obtain hseen | hids := ih h
    · by_cases hhas : g.hasSeen first = true
      · exact .inl (by simpa [see, hhas] using hseen)
      · have hboth : id ∈ g.seen ∨ id = first := by simpa [see, hhas] using hseen
        obtain hold | rfl := hboth
        · exact .inl hold
        · exact .inr List.mem_cons_self
    · exact .inr (List.mem_cons_of_mem first hids)

/-- A label that is seen when triples are added was seen before, or is one of theirs. -/
theorem mem_seen_addAll {ts : List Triple} {id : String} (h : id ∈ (g.addAll ts).seen) :
    id ∈ g.seen ∨ ∃ t ∈ ts, id ∈ t.blankIds := by
  induction ts generalizing g with
  | nil => exact .inl h
  | cons t ts ih =>
    obtain hseen | ⟨u, hu, hid⟩ := ih h
    · by_cases hhas : g.has t = true
      · exact .inl (by simpa [add, hhas] using hseen)
      · have hfold : id ∈ (t.blankIds.foldl see g).seen := by simpa [add, hhas] using hseen
        exact (mem_seen_foldl_see hfold).imp_right fun hid => ⟨t, List.mem_cons_self, hid⟩
    · exact .inr ⟨u, List.mem_cons_of_mem t hu, hid⟩

/-- Triples change the label that is minted next only if one of them has it. -/
theorem mint_addAll (g : Graph) (ts : List Triple) :
    (g.addAll ts).mint.1 = g.mint.1 ∨ ∃ t ∈ ts, g.mint.1 ∈ t.blankIds := by
  obtain ⟨found, hsearch, hmint⟩ := exists_search g
  obtain ⟨found', hsearch', hmint'⟩ := exists_search (g.addAll ts)
  have hnumber : (g.addAll ts).nextNumber = g.nextNumber := by rw [addAll_eq]
  rw [hnumber] at hsearch'
  rw [hmint, hmint']
  by_cases hseen : mintedLabel found ∈ (g.addAll ts).seen
  · have hunseen := mint_not_mem g
    rw [hmint] at hunseen
    exact .inr ((mem_seen_addAll hseen).resolve_left hunseen)
  · have hsame := (hsearch.mono (Turtle.seen_addAll g ts) hseen).unique hsearch'
    exact .inl (by rw [hsame])

/-- A row of triples that is refused is added up to the triple that is. -/
theorem addEach_refused {ts : List (Given Triple)} {fault : Fault}
    (h : .refused fault ∈ (g.addEach ts).2) : ∃ kept given after,
      ts = kept.map .proper ++ given :: after ∧
        g.addEach ts = (g.addAll kept, kept.map .added ++ [.refused fault]) ∧
        (g.addAll kept).addGiven given = .error fault := by
  induction ts generalizing g with
  | nil => cases h
  | cons given ts ih =>
    cases given with
    | plain value =>
      obtain rfl : fault = .notTriple value.kindName := by simpa [addEach] using h
      exact ⟨[], .plain value, ts, rfl, rfl, rfl⟩
    | proper t =>
      cases hkey : t.notKey? with
      | some value =>
        obtain rfl : fault = .notKey value.kindName := by simpa [addEach, addGiven, hkey] using h
        exact ⟨[], .proper t, ts, rfl, by simp [addEach, addGiven, hkey, addAll],
          by simp [addGiven, hkey]⟩
      | none =>
        have hlater : .refused fault ∈ ((g.add t).addEach ts).2 := by
          simpa [addEach, addGiven, hkey] using h
        obtain ⟨kept, given, after, rfl, hrow, hrefused⟩ := ih hlater
        exact ⟨t :: kept, given, after, rfl, by simp [addEach, addGiven, hkey, hrow, addAll],
          hrefused⟩

theorem leaves_of_refused {call : Call} {fault : Fault} (h : .refused fault ∈ (call.run g).2) :
    Leaves g call fault := by
  cases call with
  | mint => simp [Call.run] at h
  | reserve given =>
    cases hr : g.reserve given with
    | error found => simp_all [Call.run, Leaves]
    | ok answer => simp [Call.run, hr] at h
  | add t =>
    obtain ⟨kept, given, after, hsplit, hrun, -⟩ := addEach_refused h
    have hkept : kept = [] := by
      have hlength := congrArg List.length hsplit
      simp only [List.length_append, List.length_map, List.length_cons, List.length_nil] at hlength
      exact List.length_eq_zero_iff.1 (by omega)
    subst hkept
    exact .inl hrun
  | addEach ts =>
    obtain ⟨kept, given, after, rfl, hrun, hrefused⟩ := addEach_refused h
    have hsame := addAll_eq g kept
    exact .inr ⟨kept, given, after, rfl, hrun, hrefused, by rw [hsame], by rw [hsame],
      by rw [hsame], mint_addAll g kept⟩
  | erase given =>
    cases hr : g.eraseGiven given with
    | error found => simp_all [Call.run, Leaves]
    | ok g1 => simp [Call.run, hr] at h
  | bind label iri =>
    cases iri with
    | proper iri => simp [Call.run, bindGiven] at h
    | plain value => simp_all [Call.run, bindGiven, Leaves]
  | setBase base => simp [Call.run] at h

/-- Whatever calls a new graph has met, it tells their events: it holds the triples that were added
after they were last removed, once each, in the order of their earliest addition since. Each label
has the namespace that it was last bound to, in the order of the first bindings. A call that is
refused leaves everything as it was, but for the triples before a refused one in a row. -/
theorem history_ordered (base : Option (Given Iri)) (calls : List Call) :
    let (g, events) := history (setBaseGiven {} base) calls
    let entries := calls.filterMap Call.binding?
    Tells events g ∧ g.namespaces.map (·.1) = (entries.map (·.1)).eraseDups ∧
      (∀ label, g.namespace? label = entries.reverse.lookup label) ∧
      ∀ call fault, .refused fault ∈ (call.run g).2 → Leaves g call fault := by
  have htells := (tells_empty base).history calls
  have hspaces : (history (setBaseGiven {} base) calls).1.namespaces =
      (calls.filterMap Call.binding?).foldl bindEntry [] := by
    rw [namespaces_history]
    cases base with
    | none => rfl
    | some given => cases given <;> rfl
  obtain ⟨hlabels, hlookup⟩ := foldl_bindEntry (calls.filterMap Call.binding?)
  refine ⟨by simpa using htells, ?_, fun label => ?_, fun call fault => leaves_of_refused⟩
  · rw [hspaces, hlabels]
  · rw [namespace?, hspaces, hlookup]

/-- A triple that is added again after its removal comes last. -/
example :
    let t (object : String) : Given Triple := .proper ⟨.blank "s", .iri ⟨"p"⟩, .blank object⟩
    ((history {} [.add (t "x"), .add (t "y"), .erase (t "x"), .add (t "x")]).1.triples.map
      (.proper ·)) = [t "y", t "x"] := by
  decide

end Rdf.Graph

import Rdf.Proofs.Turtle.RoundTrip

/-!
Graphs that are written.

The checks of the printer pass for valid triples with writable terms, whatever the options are.
-/

namespace Rdf

/-- The term passes the checks of the printers. -/
def Term.Passes (t : Term) : Prop := t.Valid ∧ t.Writable

def Triple.Passes (t : Triple) : Prop := t.Valid ∧ t.Writable

theorem Triple.Passes.parts {t : Triple} (h : t.Passes) :
    t.subject.Passes ∧ t.predicate.isIri = true ∧ t.object.Passes :=
  ⟨⟨h.1.subject, h.2.1⟩, h.1.wellFormed.2.1, h.1.object, h.2.2⟩

namespace Turtle

variable {options : Options} {spaces : Spaces} {chains : List Chain} {g : Graph} {t : Term}

theorem exists_mapM {α β : Type} {f : α → Except WriteFault β} {xs : List α}
    (h : ∀ x ∈ xs, ∃ y, f x = .ok y) : ∃ ys, xs.mapM f = .ok ys := by
  induction xs with
  | nil => exact ⟨[], rfl⟩
  | cons x xs ih =>
    obtain ⟨⟨y, hy⟩, hrest⟩ := List.forall_mem_cons.1 h
    obtain ⟨ys, hys⟩ := ih hrest
    exact ⟨y :: ys, by rw [List.mapM_cons, hy, hys]; rfl⟩

/-! ### Terms -/

theorem exists_literal {l : Literal} (hv : l.Valid)
    (hw : ∀ tag ∈ l.language, isLanguageTag tag.toList = true) :
    ∃ text, literal options spaces l = .ok text := by
  have hcheck : Spelling.checkLiteral l = .ok () := by
    obtain ⟨-, hsingle, -⟩ := hv
    obtain ⟨value, language, datatype⟩ := l
    cases language with
    | none => rfl
    | some tag =>
      obtain rfl : datatype = none := by simpa using hsingle
      simp [Spelling.checkLiteral, hw tag rfl]
  rw [literal, hcheck]
  by_cases hshort : (options.shortLiterals && l.datatype.any (isShort l.value.toList)) = true
  · exact ⟨l.value.toList, by simp [hshort, bind, Except.bind, pure, Except.pure]⟩
  · exact ⟨Spelling.literal l (iri spaces), by simp [hshort, bind, Except.bind, pure, Except.pure]⟩

theorem exists_term (ht : t.Passes)
    (hitems : ∀ chain ∈ chains, ∀ item ∈ chain.items, item.Passes) :
    ∃ text, term options spaces chains t = .ok text := by
  fun_induction term options spaces chains t with
  | case1 chains name => exact ⟨_, rfl⟩
  | case2 chains id chain hfind ih =>
    have hchain := (find?_head hfind).1
    obtain ⟨texts, htexts⟩ := exists_mapM fun item hitem =>
      ih item (hitems chain hchain item hitem) fun other hother =>
        hitems other (List.mem_of_mem_eraseP hother)
    exact ⟨_, bind_eq_ok.2 ⟨texts, htexts, rfl⟩⟩
  | case3 chains id hfind =>
    have hlabel : isBlankLabel id.toList = true := ht.2
    exact ⟨_, if_pos hlabel⟩
  | case4 chains l => exact exists_literal ht.1 ht.2
  | case5 chains value => exact ht.1.elim

/-! ### Statements -/

theorem exists_predicatePart {part : Term × List Term} (hverb : part.1.isIri = true)
    (hobjects : ∀ object ∈ part.2, object.Passes)
    (hitems : ∀ chain ∈ chains, ∀ item ∈ chain.items, item.Passes) :
    ∃ text, predicatePart options spaces chains part = .ok text := by
  obtain ⟨verb, objects⟩ := part
  obtain ⟨texts, htexts⟩ : ∃ texts, objects.mapM (term options spaces chains) = .ok texts :=
    exists_mapM fun object hobject => exists_term (hobjects object hobject) hitems
  cases verb with
  | iri name => exact ⟨_, bind_eq_ok.2 ⟨_, rfl, bind_eq_ok.2 ⟨texts, htexts, rfl⟩⟩⟩
  | blank _ | literal _ | plain _ => simp [Term.isIri] at hverb

theorem exists_statement {group : Term × List (Term × List Term)} (hne : group.2 ≠ [])
    (hparts : ∀ part ∈ group.2, part.2 ≠ [])
    (hcontent : ∀ t ∈ content group.1 group.2, t.Passes)
    (hitems : ∀ chain ∈ chains, ∀ item ∈ chain.items, item.Passes) :
    ∃ text, statement options spaces chains group = .ok text := by
  have hall : ∀ part ∈ group.2, ∀ object ∈ part.2,
      Triple.Passes ⟨group.1, part.1, object⟩ := fun part hpart object hobject =>
    hcontent _ (List.mem_flatMap.2 ⟨part, hpart, List.mem_map_of_mem hobject⟩)
  have hfirst : ∀ part ∈ group.2, group.1.Passes ∧ part.1.isIri = true := by
    intro part hpart
    obtain ⟨object, hobject⟩ := List.exists_mem_of_ne_nil _ (hparts part hpart)
    obtain ⟨hsubject, hverb, -⟩ := (hall part hpart object hobject).parts
    exact ⟨hsubject, hverb⟩
  obtain ⟨part, hpart⟩ := List.exists_mem_of_ne_nil _ hne
  obtain ⟨subject, hsubject⟩ := exists_term (hfirst part hpart).1 hitems
  obtain ⟨texts, htexts⟩ : ∃ texts,
      group.2.mapM (predicatePart options spaces chains) = .ok texts :=
    exists_mapM fun part hpart => exists_predicatePart (hfirst part hpart).2
      (fun object hobject => (hall part hpart object hobject).parts.2.2) hitems
  exact ⟨_, bind_eq_ok.2 ⟨subject, hsubject, bind_eq_ok.2 ⟨texts, htexts, rfl⟩⟩⟩

/-! ### Documents -/

/-- Only an unknown mode of lists keeps a graph whose triples pass from being written. -/
theorem exists_write (h : ∀ t ∈ g.triples, t.Passes)
    (hlists : ∀ name, options.lists ≠ .unknown name) : ∃ text, write g options = .ok text := by
  have hforest := Forest.of_options options g.triples
  have hitems : ∀ chain ∈ options.chains g.triples, ∀ item ∈ chain.items, item.Passes := by
    intro chain hchain item hitem
    obtain ⟨t, ht, rfl⟩ := hforest.item_object hchain hitem
    exact (h t ht).parts.2.2
  have hmode : options.check = .ok () := by
    rw [Options.check]
    split
    · next name hname => exact (hlists name hname).elim
    · rfl
  have hchecks := checks_eq_ok_iff.2 fun t ht => (h t ht).1.wellFormed
  obtain ⟨blocks, hblocks⟩ : ∃ blocks,
      statements options (writtenSpaces options g) (options.chains g.triples)
        (visible g.triples (options.chains g.triples)) = .ok blocks := by
    refine exists_mapM fun group hgroup => ?_
    obtain ⟨hne, hparts, hcontent⟩ := mem_grouped hgroup
    exact exists_statement hne hparts
      (fun t ht => h t (hforest.visible_subset (hcontent t ht))) hitems
  exact ⟨_, bind_eq_ok.2 ⟨(), hmode, bind_eq_ok.2 ⟨(), hchecks,
    bind_eq_ok.2 ⟨blocks, hblocks, rfl⟩⟩⟩⟩

end Turtle

end Rdf

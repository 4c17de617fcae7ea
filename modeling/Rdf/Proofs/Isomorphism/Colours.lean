import Rdf.Proofs.Isomorphism.Renaming

/-!
Colours and isomorphisms.

An isomorphism takes a blank node to one with the same terms around it, and each refinement of the
colours sees only terms and colours, so that the nodes keep having the same colour. For the search
to lose nothing it does not matter whether nodes of different surroundings are told apart.
-/

namespace Rdf

/-! ### Surroundings -/

def Edge.map {α β : Type} (g : α → β) (edge : Edge α) : Edge β :=
  ⟨edge.outward, edge.predicate, g edge.other⟩

theorem Term.rename_eq_blank_iff {f : String → String} {nodes : Set String}
    (hf : Set.InjOn f nodes) {t : Term} (ht : ∀ a, t = .blank a → a ∈ nodes) {id : String}
    (hid : id ∈ nodes) : t.rename f = .blank (f id) ↔ t = .blank id := by
  cases t with
  | blank a => simpa [rename] using hf.eq_iff (ht a rfl) hid
  | _ => simp [rename]

theorem edgesOf_rename {f : String → String} {ts : List Triple}
    (hf : Set.InjOn f {id | id ∈ blankNodes ts}) {id : String} (hid : id ∈ blankNodes ts) :
    edgesOf (ts.map (Triple.rename f)) (f id) = (edgesOf ts id).map (Edge.map (Term.rename f)) := by
  simp only [edgesOf, List.flatMap_map, List.map_flatMap]
  apply List.flatMap_congr
  intro t ht
  have hnode : ∀ a, t.subject = .blank a ∨ t.object = .blank a → a ∈ blankNodes ts := fun a ha =>
    mem_blankNodes.2 ⟨t, ht, mem_blankIds.2 ha⟩
  have hs := Term.rename_eq_blank_iff hf (fun a ha => hnode a (.inl ha)) hid
  have ho := Term.rename_eq_blank_iff hf (fun a ha => hnode a (.inr ha)) hid
  simp only [Triple.rename, hs, ho, List.map_append]
  congr 1
  · split <;> rfl
  · split <;> rfl

theorem edgesOf_perm {ts us : List Triple} (h : ts.Perm us) (id : String) :
    (edgesOf ts id).Perm (edgesOf us id) := h.flatMap_right _

namespace Colouring

theorem seen_rename (f : String → String) (t : Term) : seen (t.rename f) = seen t := by
  cases t <;> rfl

theorem surroundings_perm {f : String → String} {left right : List Triple}
    (h : IsIsomorphism f left right) (hl : left.Nodup) (hr : right.Nodup) {id : String}
    (hid : id ∈ blankNodes left) : (surroundings left id).Perm (surroundings right (f id)) := by
  have hp := (edgesOf_perm (h.perm hl hr) (f id)).map fun edge : Edge Term =>
    (⟨edge.outward, edge.predicate, seen edge.other⟩ : Edge (Option Term))
  rw [edgesOf_rename h.bijOn.injOn hid, List.map_map] at hp
  have hseen : ((fun edge : Edge Term =>
      (⟨edge.outward, edge.predicate, seen edge.other⟩ : Edge (Option Term))) ∘
        Edge.map (Term.rename f)) = fun edge => ⟨edge.outward, edge.predicate, seen edge.other⟩ := by
    funext edge
    simp only [Function.comp_apply, Edge.map, seen_rename]
  rwa [hseen] at hp

theorem links_perm {f : String → String} {left right : List Triple}
    (h : IsIsomorphism f left right) (hl : left.Nodup) (hr : right.Nodup) {id : String}
    (hid : id ∈ blankNodes left) : ((links left id).map (Edge.map f)).Perm (links right (f id)) := by
  have hp := (edgesOf_perm (h.perm hl hr) (f id)).filterMap fun edge : Edge Term =>
    edge.other.blankId?.map fun other => (⟨edge.outward, edge.predicate, other⟩ : Edge String)
  rw [edgesOf_rename h.bijOn.injOn hid, List.filterMap_map] at hp
  rw [links, List.map_filterMap]
  refine .trans (.of_eq ?_) hp
  congr 1
  funext edge
  simp only [Function.comp_apply, Edge.map, Term.blankId?_rename]
  cases edge.other.blankId? <;> rfl

/-- What is linked to a node is a node. -/
theorem mem_blankNodes_of_mem_links {ts : List Triple} {id : String} {edge : Edge String}
    (h : edge ∈ links ts id) : edge.other ∈ blankNodes ts := by
  simp only [links, edgesOf, List.mem_filterMap, List.mem_flatMap, List.mem_append] at h
  obtain ⟨raw, ⟨t, ht, hraw⟩, hlink⟩ := h
  refine mem_blankNodes.2 ⟨t, ht, mem_blankIds.2 ?_⟩
  obtain hraw | hraw := hraw
  · split at hraw
    · obtain rfl := List.mem_singleton.1 hraw
      cases ho : t.object <;> simp [ho, Term.blankId?] at hlink ⊢
      simp [← hlink]
    · simp at hraw
  · split at hraw
    · obtain rfl := List.mem_singleton.1 hraw
      cases hs : t.subject <;> simp [hs, Term.blankId?] at hlink ⊢
      simp [← hlink]
    · simp at hraw

/-! ### Numbers for values -/

variable {σ : Type} {same : σ → σ → Bool}

theorem position_append_of_lt {value : σ} {palette : List σ}
    (h : position same value palette < palette.length) (more : List σ) :
    position same value (palette ++ more) = position same value palette := by
  simp only [position] at h ⊢
  rw [List.findIdx_append, if_pos h]

/-- Numbering puts values behind the palette, and numbers each value by its position there, however
much longer the palette becomes later on. -/
theorem number_eq (hrefl : ∀ v, same v v = true) (palette : List σ) (entries : List (String × σ)) :
    ∃ added, (number same palette entries).2 = palette ++ added ∧ ∀ more,
      (number same palette entries).1 =
        entries.map fun entry => (entry.1, position same entry.2 (palette ++ added ++ more)) := by
  induction entries generalizing palette with
  | nil => exact ⟨[], by simp [number], fun _ => rfl⟩
  | cons entry rest ih =>
    obtain ⟨id, value⟩ := entry
    by_cases hfound : position same value palette < palette.length
    · obtain ⟨added, hpal, hnum⟩ := ih palette
      refine ⟨added, by simpa [number, hfound] using hpal, fun more => ?_⟩
      have hn := hnum more
      simp only [number, hfound, if_true, List.map_cons, hn]
      rw [List.append_assoc, position_append_of_lt hfound]
    · obtain ⟨added, hpal, hnum⟩ := ih (palette ++ [value])
      refine ⟨value :: added, by simpa [number, hfound] using hpal, fun more => ?_⟩
      have hpos : position same value (palette ++ [value]) = palette.length := by
        simp only [position] at hfound ⊢
        rw [List.findIdx_append, if_neg hfound]
        simp [hrefl]
      have hle : position same value palette = palette.length :=
        Nat.le_antisymm List.findIdx_le_length (Nat.le_of_not_lt hfound)
      have hassoc : palette ++ value :: added ++ more = palette ++ [value] ++ (added ++ more) := by
        simp
      have hlt : position same value (palette ++ [value]) < (palette ++ [value]).length := by
        rw [hpos]
        simp
      have happ := position_append_of_lt hlt (added ++ more)
      have hn := hnum more
      rw [List.append_assoc (palette ++ [value])] at hn
      simp only [number, hfound, if_false, List.map_cons, hn]
      rw [hassoc, happ, hpos, hle]

/-- The nodes of two rows get the positions of their values in one palette. -/
theorem number_both (hrefl : ∀ v, same v v = true) (leftIds rightIds : List String)
    (leftValue rightValue : String → σ) :
    ∃ palette, (number same [] (leftIds.map fun id => (id, leftValue id))).1 =
        leftIds.map (fun id => (id, position same (leftValue id) palette)) ∧
      (number same (number same [] (leftIds.map fun id => (id, leftValue id))).2
          (rightIds.map fun id => (id, rightValue id))).1 =
        rightIds.map fun id => (id, position same (rightValue id) palette) := by
  obtain ⟨first, hpal, hleft⟩ := number_eq hrefl [] (leftIds.map fun id => (id, leftValue id))
  obtain ⟨second, -, hright⟩ := number_eq hrefl ([] ++ first)
    (rightIds.map fun id => (id, rightValue id))
  refine ⟨first ++ second, ?_, ?_⟩
  · simpa [List.map_map, Function.comp_def] using hleft second
  · rw [hpal]
    simpa [List.map_map, Function.comp_def] using hright []

theorem colour_map {ids : List String} {id : String} (hid : id ∈ ids) (c : String → Nat) :
    colour (ids.map fun id => (id, c id)) id = c id := by
  have hl : (ids.map fun id => (id, c id)).lookup id = some (c id) := by
    induction ids with
    | nil => simp at hid
    | cons a ids ih =>
      by_cases ha : id = a
      · subst ha
        simp
      · have hm := (List.mem_cons.1 hid).resolve_left ha
        simp only [List.map_cons, List.lookup_cons, beq_false_of_ne ha, ih hm]
  simp [colour, hl]

theorem colour_of_mem {colouring : Colouring} (h : (colouring.map (·.1)).Nodup)
    {entry : String × Nat} (hmem : entry ∈ colouring) : colouring.colour entry.1 = entry.2 := by
  obtain ⟨before, after, rfl⟩ := List.append_of_mem hmem
  have hnot : ∀ e ∈ before, entry.1 ≠ e.1 := by
    intro e he heq
    rw [List.map_append, List.map_cons, List.nodup_append] at h
    exact h.2.2 _ (List.mem_map_of_mem he) _ (List.mem_cons_self ..) heq.symm
  have hl : (before ++ entry :: after).lookup entry.1 = some entry.2 :=
    List.lookup_eq_some_iff.2 ⟨before, after, rfl, by simpa using hnot⟩
  simp [colour, hl]

theorem eq_map_colour {colouring : Colouring} (h : (colouring.map (·.1)).Nodup) :
    colouring = (colouring.map (·.1)).map fun id => (id, colouring.colour id) := by
  rw [List.map_map]
  refine (List.map_id _).symm.trans (List.map_congr_left fun entry he => ?_)
  simp [colour_of_mem h he]

theorem mem_nodesOf {colouring : Colouring} (h : (colouring.map (·.1)).Nodup) {id : String}
    (hid : id ∈ colouring.map (·.1)) : id ∈ colouring.nodesOf (colouring.colour id) := by
  obtain ⟨entry, he, rfl⟩ := List.mem_map.1 hid
  have hc := colour_of_mem h he
  exact List.mem_map.2 ⟨entry, List.mem_filter.2 ⟨he, by simp [hc]⟩, rfl⟩

/-! ### Isomorphisms keep colours -/

/-- The colours of two rows of triples are colours of their blank nodes. -/
structure Paired.IsOver (left right : List Triple) (paired : Paired) : Prop where
  left_eq : paired.left.map (·.1) = blankNodes left
  right_eq : paired.right.map (·.1) = blankNodes right

/-- A renaming takes each node to one of its own colour. -/
def Paired.Keeps (f : String → String) (left : List Triple) (paired : Paired) : Prop :=
  ∀ id ∈ blankNodes left, paired.right.colour (f id) = paired.left.colour id

variable {f : String → String} {left right : List Triple} {paired : Paired}

theorem isPerm_self {α : Type} [BEq α] [LawfulBEq α] (xs : List α) : xs.isPerm xs = true :=
  List.isPerm_iff.2 (.refl xs)

theorem startBoth_isOver (left right : List Triple) : (startBoth left right).IsOver left right := by
  obtain ⟨palette, hl, hr⟩ := number_both isPerm_self (blankNodes left)
    (blankNodes right) (surroundings left) (surroundings right)
  constructor
  · simp [startBoth, start, hl, Function.comp_def]
  · simp [startBoth, start, hr, Function.comp_def]

theorem startBoth_keeps (h : IsIsomorphism f left right) (hl : left.Nodup) (hr : right.Nodup) :
    (startBoth left right).Keeps f left := by
  intro id hid
  obtain ⟨palette, hleft, hright⟩ := number_both isPerm_self (blankNodes left)
    (blankNodes right) (surroundings left) (surroundings right)
  have hsame : List.isPerm (surroundings right (f id)) = List.isPerm (surroundings left id) := by
    funext v
    rw [Bool.eq_iff_iff, List.isPerm_iff, List.isPerm_iff]
    exact (surroundings_perm h hl hr hid).congr_left v |>.symm
  simp only [startBoth, start, hleft, hright, colour_map hid, colour_map (h.bijOn.mapsTo hid),
    position, hsame]

theorem View.same_refl (v : View) : v.same v = true := by
  simp [View.same, isPerm_self]

theorem View.same_congr {v w : View} (hown : v.own = w.own) (haround : v.around.Perm w.around) :
    v.same = w.same := by
  funext u
  rw [Bool.eq_iff_iff]
  simp only [View.same, hown, Bool.and_eq_true, List.isPerm_iff, haround.congr_left]

/-- What a node sees of the colours around it. -/
def viewIn (ts : List Triple) (colouring : Colouring) (id : String) : View :=
  ⟨colouring.colour id, (links ts id).map (Edge.map colouring.colour)⟩

theorem refine_linked (palette : List View) (ts : List Triple) (colouring : Colouring) :
    refine palette (linked ts) colouring =
      number View.same palette ((blankNodes ts).map fun id => (id, viewIn ts colouring id)) := by
  simp only [refine, linked, List.map_map]
  rfl

theorem refine_isOver (paired : Paired) :
    (paired.refine (linked left) (linked right)).IsOver left right := by
  obtain ⟨palette, hl, hr⟩ := number_both View.same_refl (blankNodes left) (blankNodes right)
    (viewIn left paired.left) (viewIn right paired.right)
  constructor
  · simp [Paired.refine, refine_linked, hl, Function.comp_def]
  · simp [Paired.refine, refine_linked, hr, Function.comp_def]

theorem refine_keeps (h : IsIsomorphism f left right) (hl : left.Nodup) (hr : right.Nodup)
    (hk : paired.Keeps f left) : (paired.refine (linked left) (linked right)).Keeps f left := by
  intro id hid
  obtain ⟨palette, hleft, hright⟩ := number_both View.same_refl (blankNodes left)
    (blankNodes right) (viewIn left paired.left) (viewIn right paired.right)
  have haround : ((links left id).map (Edge.map paired.left.colour)).Perm
      ((links right (f id)).map (Edge.map paired.right.colour)) := by
    refine .trans (.of_eq ?_) ((links_perm h hl hr hid).map _)
    rw [List.map_map]
    apply List.map_congr_left
    intro edge hedge
    simp only [Function.comp_apply, Edge.map, hk _ (mem_blankNodes_of_mem_links hedge)]
  have hsame : (viewIn right paired.right (f id)).same = (viewIn left paired.left id).same :=
    View.same_congr (hk id hid) haround.symm
  simp only [Paired.refine, refine_linked, hleft, hright, colour_map hid,
    colour_map (h.bijOn.mapsTo hid), position, hsame]

theorem Paired.IsOver.colours_perm (ho : paired.IsOver left right) (h : IsIsomorphism f left right)
    (hk : paired.Keeps f left) : paired.left.colours.Perm paired.right.colours := by
  have hl := eq_map_colour (ho.left_eq ▸ blankNodes_nodup left)
  have hr := eq_map_colour (ho.right_eq ▸ blankNodes_nodup right)
  have hright := (h.blankNodes_perm.map paired.right.colour).symm
  rw [List.map_map] at hright
  have hcolours : (blankNodes left).map (paired.right.colour ∘ f) =
      (blankNodes left).map paired.left.colour := List.map_congr_left hk
  rw [hcolours] at hright
  rw [ho.left_eq] at hl
  rw [ho.right_eq] at hr
  rw [hl, hr]
  simpa [colours, List.map_map, Function.comp_def] using hright.symm

/-! ### The loop -/

theorem settle_isOver {result : Paired} (ho : paired.IsOver left right)
    (hs : settle (linked left) (linked right) paired = some result) : result.IsOver left right := by
  fun_induction settle (linked left) (linked right) paired with
  | case1 paired _ _ _ ih => exact ih (refine_isOver paired) hs
  | case2 paired => exact Option.some.inj hs ▸ ho
  | case3 => simp at hs

theorem settle_keeps (h : IsIsomorphism f left right) (hl : left.Nodup) (hr : right.Nodup)
    (ho : paired.IsOver left right) (hk : paired.Keeps f left) :
    ∃ result, settle (linked left) (linked right) paired = some result ∧ result.Keeps f left := by
  fun_induction settle (linked left) (linked right) paired with
  | case1 paired _ _ _ ih => exact ih (refine_isOver paired) (refine_keeps h hl hr hk)
  | case2 paired => exact ⟨paired, rfl, hk⟩
  | case3 paired hperm => exact absurd (List.isPerm_iff.2 (ho.colours_perm h hk)) hperm

theorem stable_isOver {result : Paired} (hs : stable left right = some result) :
    result.IsOver left right := settle_isOver (startBoth_isOver left right) hs

/-- Between isomorphic sets of triples the loop ends with colours that the isomorphism keeps. -/
theorem stable_keeps (h : IsIsomorphism f left right) (hl : left.Nodup) (hr : right.Nodup) :
    ∃ result, stable left right = some result ∧ result.Keeps f left :=
  settle_keeps h hl hr (startBoth_isOver left right) (startBoth_keeps h hl hr)

end Colouring

end Rdf

import Rdf.Proofs.Isomorphism.Renaming

/-!
The search for a renaming.

A search that has renamed some nodes finds a renaming of the others exactly when there is one that
takes each of them to a candidate, keeps all nodes apart, and takes every triple about one of them
into the other set. A branch that is given up holds none.
-/

namespace Rdf

/-! ### Tests that give an answer -/

/-- A test gives an answer, which tells whether a statement holds. -/
def Decides (test : Except Fault Bool) (p : Prop) : Prop :=
  ∃ answer, test = .ok answer ∧ (answer = true ↔ p)

namespace Decides

variable {α : Type} {test : Except Fault Bool} {p q : Prop}

theorem congr (h : Decides test p) (hpq : p ↔ q) : Decides test q := by
  obtain ⟨answer, rfl, ha⟩ := h
  exact ⟨answer, rfl, ha.trans hpq⟩

theorem no (h : ¬ p) : Decides (.ok false) p := ⟨false, rfl, by simpa using h⟩

theorem yes (h : p) : Decides (.ok true) p := ⟨true, rfl, by simpa using h⟩

theorem and {next : Except Fault Bool} (hp : Decides test p) (hq : p → Decides next q) :
    Decides (do if ← test then next else return false) (p ∧ q) := by
  obtain ⟨answer, rfl, ha⟩ := hp
  cases answer with
  | false => exact no fun h => by simpa using ha.2 h.1
  | true => exact (hq (ha.1 rfl)).congr (by simp [ha.1 rfl])

theorem anyM {tests : α → Except Fault Bool} {ps : α → Prop} {xs : List α}
    (h : ∀ x ∈ xs, Decides (tests x) (ps x)) : Decides (xs.anyM tests) (∃ x ∈ xs, ps x) := by
  induction xs with
  | nil => exact no (by simp)
  | cons x xs ih =>
    obtain ⟨answer, hx, ha⟩ := h x (by simp)
    rw [List.anyM_cons, hx]
    cases answer with
    | true => exact yes ⟨x, by simp, ha.1 rfl⟩
    | false =>
      have hnot : ¬ ps x := fun hp => by simpa using ha.2 hp
      exact (ih fun y hy => h y (List.mem_cons_of_mem x hy)).congr (by simp [hnot])

theorem allM {tests : α → Except Fault Bool} {ps : α → Prop} {xs : List α}
    (h : ∀ x ∈ xs, Decides (tests x) (ps x)) : Decides (xs.allM tests) (∀ x ∈ xs, ps x) := by
  induction xs with
  | nil => exact yes (by simp)
  | cons x xs ih =>
    obtain ⟨answer, hx, ha⟩ := h x (by simp)
    rw [List.allM_cons, hx]
    cases answer with
    | false => exact no fun hall => by simpa using ha.2 (hall x (by simp))
    | true =>
      exact (ih fun y hy => h y (List.mem_cons_of_mem x hy)).congr (by simp [ha.1 rfl])

end Decides

namespace Renaming

/-! ### Partial renamings -/

/-- The part of a renaming that reaches the given nodes. -/
def ofNodes (f : String → String) (done : List String) : Renaming := done.map fun id => (id, f id)

theorem lookup_ofNodes (f : String → String) (done : List String) (id : String) :
    (ofNodes f done).lookup id = if id ∈ done then some (f id) else none := by
  induction done with
  | nil => rfl
  | cons a done ih =>
    by_cases ha : id = a
    · subst ha
      simp [ofNodes]
    · have hcons : ofNodes f (a :: done) = (a, f a) :: ofNodes f done := rfl
      simp only [hcons, List.lookup_cons, beq_false_of_ne ha, ih, List.mem_cons, ha, false_or]

theorem term?_ofNodes {f : String → String} {done : List String} {t : Term}
    (ht : t.isTerm = true) (hdone : ∀ id, t = .blank id → id ∈ done) :
    (ofNodes f done).term? t = some (t.rename f) := by
  cases t with
  | blank id => simp [term?, lookup_ofNodes, hdone id rfl, Term.rename]
  | plain value => simp [Term.isTerm] at ht
  | _ => rfl

theorem term?_ofNodes_eq_none {f : String → String} {done : List String} {id : String}
    (h : id ∉ done) : (ofNodes f done).term? (.blank id) = none := by
  simp [term?, lookup_ofNodes, h]

/-- A triple is kept unless it is renamed completely to one that is not there. -/
theorem keeps_decides {f : String → String} {done : List String} {right : List Triple} {t : Triple}
    (ht : t.WellFormed) : Decides ((ofNodes f done).keeps right t)
      ((∀ id ∈ t.blankIds, id ∈ done) → t.rename f ∈ right) := by
  obtain ⟨hs, -, ho⟩ := ht.isTerm
  by_cases hall : ∀ id ∈ t.blankIds, id ∈ done
  · have hsubject := term?_ofNodes (f := f) hs fun id he => hall id (mem_blankIds.2 (.inl he))
    have hobject := term?_ofNodes (f := f) ho fun id he => hall id (mem_blankIds.2 (.inr he))
    have hmake : Triple.make (t.subject.rename f) t.predicate (t.object.rename f) =
        .ok (t.rename f) := Triple.make_eq_ok_iff.2 ⟨rfl, ht.rename f⟩
    refine ⟨right.contains (t.rename f), ?_, ?_⟩
    · simp only [keeps, hsubject, hobject, hmake]
      rfl
    · rw [List.contains_iff_mem]
      exact ⟨fun h _ => h, fun h => h hall⟩
  · obtain ⟨id, hid, hnot⟩ : ∃ id ∈ t.blankIds, id ∉ done := by simpa using hall
    refine ⟨true, ?_, fun _ hin => absurd hin hall, fun _ => rfl⟩
    obtain he | he := mem_blankIds.1 hid
    · simp only [keeps, he, term?_ofNodes_eq_none hnot]
    · simp only [keeps, he, term?_ofNodes_eq_none hnot]
      cases (ofNodes f done).term? t.subject <;> rfl

/-! ### Solutions -/

/-- A renaming of some nodes, where others have been renamed already, that the search accepts. -/
structure Solves (left right : List Triple) (candidates : String → List String)
    (g : String → String) (done nodes : List String) : Prop where
  target : ∀ id ∈ nodes, g id ∈ candidates id
  injOn : Set.InjOn g {id | id ∈ done ∨ id ∈ nodes}
  keeps : ∀ t ∈ left, (∃ id ∈ nodes, id ∈ t.blankIds) →
    (∀ id ∈ t.blankIds, id ∈ done ∨ id ∈ nodes) → t.rename g ∈ right

variable {left right : List Triple} {candidates : String → List String} {f g : String → String}
  {done nodes : List String} {node : String}

/-- The triples about a node are all taken into a set, as far as they are renamed. -/
def KeepsAround (left right : List Triple) (f : String → String) (done : List String)
    (node : String) : Prop :=
  ∀ t ∈ left, node ∈ t.blankIds → (∀ id ∈ t.blankIds, id ∈ node :: done) → t.rename f ∈ right

theorem Solves.tail (h : Solves left right candidates g done (node :: nodes)) :
    Solves left right candidates g (node :: done) nodes := by
  refine ⟨fun id hid => h.target id (by simp [hid]), ?_, fun t ht htouch hin => ?_⟩
  · apply h.injOn.mono
    intro id hid
    simpa [or_comm, or_left_comm, or_assoc] using hid
  · obtain ⟨id, hid, hmem⟩ := htouch
    apply h.keeps t ht ⟨id, by simp [hid], hmem⟩
    intro id hid
    simpa [or_comm, or_left_comm, or_assoc] using hin id hid

theorem Solves.keepsAround (h : Solves left right candidates g done (node :: nodes))
    (hfg : ∀ id ∈ node :: done, g id = f id) : KeepsAround left right f done node := by
  intro t ht hnode hin
  rw [← Triple.rename_congr fun id hid => hfg id (hin id hid)]
  apply h.keeps t ht ⟨node, by simp, hnode⟩
  intro id hid
  obtain rfl | hd := List.mem_cons.1 (hin id hid)
  · exact .inr (by simp)
  · exact .inl hd

theorem Solves.cons (h : Solves left right candidates g (node :: done) nodes)
    (htarget : g node ∈ candidates node) (hfg : ∀ id ∈ node :: done, g id = f id)
    (haround : KeepsAround left right f done node) :
    Solves left right candidates g done (node :: nodes) := by
  refine ⟨?_, ?_, fun t ht htouch hin => ?_⟩
  · intro id hid
    obtain rfl | hid := List.mem_cons.1 hid
    · exact htarget
    · exact h.target id hid
  · apply h.injOn.mono
    intro id hid
    simpa [or_comm, or_left_comm, or_assoc] using hid
  · by_cases hlater : ∃ id ∈ nodes, id ∈ t.blankIds
    · apply h.keeps t ht hlater
      intro id hid
      simpa [or_comm, or_left_comm, or_assoc] using hin id hid
    · have hnot : ∀ id ∈ t.blankIds, id ∉ nodes := fun id hid hn => hlater ⟨id, hn, hid⟩
      have hin' : ∀ id ∈ t.blankIds, id ∈ node :: done := by
        intro id hid
        have := hin id hid
        simp only [List.mem_cons, hnot id hid, or_false] at this ⊢
        exact this.symm
      obtain ⟨id, hid, hmem⟩ := htouch
      obtain rfl : id = node := (List.mem_cons.1 hid).resolve_right (hnot id hmem)
      rw [Triple.rename_congr fun id hid => hfg id (hin' id hid)]
      exact haround t ht hmem hin'

/-! ### Search -/

theorem update_of_mem (hnode : node ∉ done) (target : String) {id : String} (hid : id ∈ done) :
    Function.update f node target id = f id :=
  Function.update_of_ne (fun he : id = node => hnode (he ▸ hid)) target f

theorem ofNodes_cons_update (hnode : node ∉ done) (target : String) :
    (node, target) :: ofNodes f done = ofNodes (Function.update f node target) (node :: done) := by
  simp only [ofNodes, List.map_cons, Function.update_self, List.cons.injEq, true_and]
  exact List.map_congr_left fun id hid => by rw [update_of_mem hnode target hid]

/-- A new target keeps the nodes renamed so far apart. -/
theorem injOn_update (hnode : node ∉ done) {target : String} (hfree : ∀ id ∈ done, f id ≠ target)
    (hf : Set.InjOn f {id | id ∈ done}) :
    Set.InjOn (Function.update f node target) {id | id ∈ node :: done} := by
  intro a ha b hb heq
  obtain rfl | had := List.mem_cons.1 ha
  · obtain rfl | hbd := List.mem_cons.1 hb
    · rfl
    · rw [Function.update_self, update_of_mem hnode target hbd] at heq
      exact absurd heq.symm (hfree b hbd)
  · obtain rfl | hbd := List.mem_cons.1 hb
    · rw [Function.update_self, update_of_mem hnode target had] at heq
      exact absurd heq (hfree a had)
    · rw [update_of_mem hnode target had, update_of_mem hnode target hbd] at heq
      exact hf had hbd heq

theorem keepsAround_decides (hl : ∀ t ∈ left, t.WellFormed) (f : String → String) :
    Decides ((left.filter (·.blankIds.contains node)).allM
      ((ofNodes f (node :: done)).keeps right)) (KeepsAround left right f done node) := by
  refine (Decides.allM fun t ht => keeps_decides (hl t (List.mem_filter.1 ht).1)).congr ?_
  simp only [List.mem_filter, List.contains_iff_mem, and_imp]
  rfl

/-- The search tells whether the nodes renamed so far can be completed. The induction is on the
nodes that are left, for all renamings of the others. -/
theorem completes_decides (f : String → String) (done : List String) (hl : ∀ t ∈ left, t.WellFormed)
    (hn : nodes.Nodup) (hd : ∀ id ∈ nodes, id ∉ done) (hf : Set.InjOn f {id | id ∈ done}) :
    Decides (completes left right candidates nodes (ofNodes f done))
      (∃ g, (∀ id ∈ done, g id = f id) ∧ Solves left right candidates g done nodes) := by
  induction nodes generalizing f done with
  | nil =>
    refine .yes ⟨f, fun _ _ => rfl, by simp, by simpa using hf, ?_⟩
    rintro t - ⟨id, hid, -⟩
    simp at hid
  | cons node nodes ih =>
    have hnode : node ∉ done := hd node (by simp)
    obtain ⟨hfresh, hn⟩ := List.nodup_cons.1 hn
    have hd' : ∀ id ∈ nodes, id ∉ node :: done := by
      intro id hid hmem
      obtain rfl | hmem := List.mem_cons.1 hmem
      · exact hfresh hid
      · exact hd id (by simp [hid]) hmem
    let P := fun target => (∀ id ∈ done, f id ≠ target) ∧
      KeepsAround left right (Function.update f node target) done node ∧
      ∃ g, (∀ id ∈ node :: done, g id = Function.update f node target id) ∧
        Solves left right candidates g (node :: done) nodes
    have hsearch : Decides (completes left right candidates (node :: nodes) (ofNodes f done))
        (∃ target ∈ candidates node, P target) := by
      refine .anyM fun target _ => ?_
      split
      · next hused =>
        refine .no fun hP => ?_
        obtain ⟨entry, hentry, heq⟩ := List.any_eq_true.1 hused
        obtain ⟨id, hid, rfl⟩ := List.mem_map.1 hentry
        exact hP.1 id hid (by simpa using heq)
      · next hunused =>
        have hfree : ∀ id ∈ done, f id ≠ target := by
          simpa [ofNodes] using hunused
        have hinj := injOn_update hnode hfree hf
        have haround : Decides _ (KeepsAround left right (Function.update f node target) done node) :=
          keepsAround_decides hl _
        rw [ofNodes_cons_update hnode]
        refine (haround.and fun _ => ?_).congr (show _ ↔ P target from (and_iff_right hfree).symm)
        exact ih _ _ hn hd' hinj
    refine hsearch.congr ⟨?_, ?_⟩
    · rintro ⟨target, htarget, -, haround, g, hfg, hg⟩
      have hgnode : g node = target := by simpa using hfg node (by simp)
      refine ⟨g, fun id hid => ?_, hg.cons (hgnode ▸ htarget) hfg haround⟩
      rw [hfg id (by simp [hid]), update_of_mem hnode target hid]
    · rintro ⟨g, hfg, hg⟩
      have hupdate : ∀ id ∈ node :: done, g id = Function.update f node (g node) id := by
        intro id hid
        obtain rfl | hid := List.mem_cons.1 hid
        · rw [Function.update_self]
        · rw [hfg id hid, update_of_mem hnode _ hid]
      refine ⟨g node, hg.target node (by simp), fun id hid heq => ?_,
        hg.keepsAround hupdate, g, hupdate, hg.tail⟩
      have hsame := hg.injOn (.inl hid) (.inr (by simp)) ((hfg id hid).trans heq)
      exact hnode (hsame ▸ hid)

end Renaming

end Rdf

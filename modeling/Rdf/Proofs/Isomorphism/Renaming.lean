import Mathlib.Data.List.Nodup
import Mathlib.Data.Set.Function
import Rdf.Graph.Isomorphism

/-!
Renamings of blank nodes.

Two sets of triples are isomorphic when a bijection between their blank nodes takes the one set to
the other. Triples without blank nodes stay as they are, so that only the others decide how nodes
may be renamed.
-/

namespace Rdf

def Term.rename (f : String → String) : Term → Term
  | .blank id => .blank (f id)
  | term => term

def Triple.rename (f : String → String) (t : Triple) : Triple :=
  ⟨t.subject.rename f, t.predicate, t.object.rename f⟩

/-- A bijection between the blank nodes of two rows of triples that takes the triples of the one,
as a set, to those of the other. -/
structure IsIsomorphism (f : String → String) (left right : List Triple) : Prop where
  bijOn : Set.BijOn f {id | id ∈ blankNodes left} {id | id ∈ blankNodes right}
  mem_iff : ∀ t, t ∈ right ↔ ∃ u ∈ left, u.rename f = t

def Isomorphic (left right : List Triple) : Prop := ∃ f, IsIsomorphism f left right

/-! ### Blank nodes -/

@[simp] theorem mem_blankIds {t : Triple} {id : String} :
    id ∈ t.blankIds ↔ t.subject = .blank id ∨ t.object = .blank id := by
  obtain ⟨s, p, o⟩ := t
  cases s <;> cases o <;> simp [Triple.blankIds, Term.blankId?, eq_comm]

@[simp] theorem mem_blankNodes {ts : List Triple} {id : String} :
    id ∈ blankNodes ts ↔ ∃ t ∈ ts, id ∈ t.blankIds := by
  rw [blankNodes, List.mem_eraseDups, List.mem_flatMap]

theorem blankNodes_congr {ts us : List Triple} (h : ∀ t, t ∈ ts ↔ t ∈ us) (id : String) :
    id ∈ blankNodes ts ↔ id ∈ blankNodes us := by
  simp only [mem_blankNodes, h]

theorem Term.blankId?_rename (f : String → String) (t : Term) :
    (t.rename f).blankId? = t.blankId?.map f := by
  cases t <;> rfl

theorem Triple.blankIds_rename (f : String → String) (t : Triple) :
    (t.rename f).blankIds = t.blankIds.map f := by
  simp only [blankIds, rename, List.filterMap_cons, List.filterMap_nil, Term.blankId?_rename]
  cases t.subject.blankId? <;> cases t.object.blankId? <;> rfl

theorem Triple.isGround_rename (f : String → String) (t : Triple) :
    (t.rename f).isGround = t.isGround := by
  simp [isGround, blankIds_rename]

theorem Triple.WellFormed.rename {t : Triple} (h : t.WellFormed) (f : String → String) :
    (t.rename f).WellFormed := by
  obtain ⟨hs, hp, ho⟩ := h
  refine ⟨?_, hp, ?_⟩
  · revert hs
    cases hc : t.subject <;> simp [Triple.rename, Term.rename, Term.isResource, hc]
  · revert ho
    cases hc : t.object <;> simp [Triple.rename, Term.rename, Term.isTerm, hc]

/-- A renaming that agrees with another one on the blank nodes of a triple does the same to it. -/
theorem Triple.rename_congr {f g : String → String} {t : Triple}
    (h : ∀ id ∈ t.blankIds, f id = g id) : t.rename f = t.rename g := by
  obtain ⟨s, p, o⟩ := t
  have hs : s.rename f = s.rename g := by
    cases s with
    | blank id => exact congrArg Term.blank (h id (by simp))
    | _ => rfl
  have ho : o.rename f = o.rename g := by
    cases o with
    | blank id => exact congrArg Term.blank (h id (by simp))
    | _ => rfl
  simp only [Triple.rename, hs, ho]

theorem Triple.rename_of_isGround {t : Triple} (h : t.isGround = true) (f : String → String) :
    t.rename f = t := by
  obtain ⟨s, p, o⟩ := t
  cases s <;> cases o <;>
    simp [isGround, blankIds, Term.blankId?, Triple.rename, Term.rename] at h ⊢

theorem Term.rename_inj {f : String → String} {nodes : Set String} (hf : Set.InjOn f nodes)
    {s t : Term} (hs : ∀ id, s = .blank id → id ∈ nodes) (ht : ∀ id, t = .blank id → id ∈ nodes)
    (h : s.rename f = t.rename f) : s = t := by
  cases s with
  | blank a =>
    cases t with
    | blank b =>
      have hab := hf (hs a rfl) (ht b rfl) (by simpa [rename] using h)
      rw [hab]
    | _ => simp [rename] at h
  | _ => cases t <;> simp_all [rename]

theorem Triple.rename_inj {f : String → String} {nodes : Set String} (hf : Set.InjOn f nodes)
    {t u : Triple} (ht : ∀ id ∈ t.blankIds, id ∈ nodes) (hu : ∀ id ∈ u.blankIds, id ∈ nodes)
    (h : t.rename f = u.rename f) : t = u := by
  obtain ⟨s, p, o⟩ := t
  obtain ⟨s', p', o'⟩ := u
  simp only [Triple.rename, Triple.mk.injEq] at h
  obtain ⟨h1, rfl, h2⟩ := h
  have hs := Term.rename_inj hf (fun id he => ht id (by simp [he]))
    (fun id he => hu id (by simp [he])) h1
  have ho := Term.rename_inj hf (fun id he => ht id (by simp [he]))
    (fun id he => hu id (by simp [he])) h2
  rw [hs, ho]

/-! ### Isomorphisms -/

/-- A renaming that keeps the blank nodes of one set apart and takes it to another set reaches all
blank nodes there. -/
theorem IsIsomorphism.of_injOn {f : String → String} {left right : List Triple}
    (hf : Set.InjOn f {id | id ∈ blankNodes left})
    (h : ∀ t, t ∈ right ↔ ∃ u ∈ left, u.rename f = t) : IsIsomorphism f left right := by
  refine ⟨⟨?_, hf, ?_⟩, h⟩
  · intro id hid
    obtain ⟨u, hu, hid⟩ := mem_blankNodes.1 hid
    refine mem_blankNodes.2 ⟨u.rename f, (h _).2 ⟨u, hu, rfl⟩, ?_⟩
    rw [Triple.blankIds_rename]
    exact List.mem_map_of_mem hid
  · intro id hid
    obtain ⟨t, ht, hid⟩ := mem_blankNodes.1 hid
    obtain ⟨u, hu, rfl⟩ := (h t).1 ht
    rw [Triple.blankIds_rename] at hid
    obtain ⟨a, ha, rfl⟩ := List.mem_map.1 hid
    exact ⟨a, mem_blankNodes.2 ⟨u, hu, ha⟩, rfl⟩

theorem Isomorphic.congr {left right left' right' : List Triple}
    (hl : ∀ t, t ∈ left' ↔ t ∈ left) (hr : ∀ t, t ∈ right' ↔ t ∈ right) :
    Isomorphic left' right' ↔ Isomorphic left right := by
  refine exists_congr fun f => ⟨fun h => .of_injOn ?_ ?_, fun h => .of_injOn ?_ ?_⟩
  · simpa only [blankNodes_congr hl] using h.bijOn.injOn
  · simpa only [hl, hr] using h.mem_iff
  · simpa only [blankNodes_congr hl] using h.bijOn.injOn
  · simpa only [hl, hr] using h.mem_iff

theorem Isomorphic.of_mem_iff {left right : List Triple} (h : ∀ t, t ∈ right ↔ t ∈ left) :
    Isomorphic left right := by
  have hid : ∀ t : Triple, t.rename id = t := by
    rintro ⟨s, p, o⟩
    cases s <;> cases o <;> rfl
  exact ⟨id, .of_injOn (Set.injOn_id _) fun t => by simp [h, hid]⟩

/-- Without repetitions, the triples of one side are those of the other, renamed. -/
theorem IsIsomorphism.perm {f : String → String} {left right : List Triple}
    (h : IsIsomorphism f left right) (hl : left.Nodup) (hr : right.Nodup) :
    (left.map (Triple.rename f)).Perm right := by
  refine (List.perm_ext_iff_of_nodup ?_ hr).2 fun t => ?_
  · apply hl.map_on
    intro t ht u hu heq
    exact Triple.rename_inj h.bijOn.injOn (fun id hid => mem_blankNodes.2 ⟨t, ht, hid⟩)
      (fun id hid => mem_blankNodes.2 ⟨u, hu, hid⟩) heq
  · rw [List.mem_map, h.mem_iff]

theorem nodup_eraseDups {α : Type} [BEq α] [LawfulBEq α] (xs : List α) : xs.eraseDups.Nodup := by
  induction hn : xs.length using Nat.strongRecOn generalizing xs with
  | ind n ih =>
    cases xs with
    | nil => simp
    | cons x xs =>
      have hf := List.length_filter_le (fun y => !y == x) xs
      rw [List.length_cons] at hn
      rw [List.eraseDups_cons, List.nodup_cons]
      exact ⟨by simp, ih _ (by omega) _ rfl⟩

theorem blankNodes_nodup (ts : List Triple) : (blankNodes ts).Nodup := nodup_eraseDups _

/-- An isomorphism permutes the blank nodes of the two sides. -/
theorem IsIsomorphism.blankNodes_perm {f : String → String} {left right : List Triple}
    (h : IsIsomorphism f left right) : ((blankNodes left).map f).Perm (blankNodes right) := by
  refine (List.perm_ext_iff_of_nodup ?_ (blankNodes_nodup right)).2 fun id => ?_
  · exact (blankNodes_nodup left).map_on fun a ha b hb heq => h.bijOn.injOn ha hb heq
  · have himage := h.bijOn.image_eq
    rw [Set.ext_iff] at himage
    simpa using himage id

/-! ### Triples with blank nodes -/

/-- The triples that are about a blank node. -/
def blankTriples (ts : List Triple) : List Triple := ts.filter fun t => !t.isGround

@[simp] theorem mem_blankTriples {ts : List Triple} {t : Triple} :
    t ∈ blankTriples ts ↔ t ∈ ts ∧ t.isGround = false := by
  simp [blankTriples]

theorem mem_blankNodes_blankTriples {ts : List Triple} {id : String} :
    id ∈ blankNodes (blankTriples ts) ↔ id ∈ blankNodes ts := by
  simp only [mem_blankNodes, mem_blankTriples]
  constructor
  · rintro ⟨t, ⟨ht, -⟩, hid⟩
    exact ⟨t, ht, hid⟩
  · rintro ⟨t, ht, hid⟩
    have hg : t.isGround = false := by
      simpa [Triple.isGround] using List.ne_nil_of_mem hid
    exact ⟨t, ⟨ht, hg⟩, hid⟩

/-- Sets of triples are isomorphic when they have the same triples without blank nodes and those
with blank nodes are isomorphic. -/
theorem isomorphic_iff_blankTriples {left right : List Triple} :
    Isomorphic left right ↔
      (∀ t, t.isGround = true → (t ∈ left ↔ t ∈ right)) ∧
        Isomorphic (blankTriples left) (blankTriples right) := by
  constructor
  · rintro ⟨f, h⟩
    refine ⟨fun t hg => ?_, f, .of_injOn ?_ fun t => ?_⟩
    · rw [h.mem_iff]
      constructor
      · intro ht
        exact ⟨t, ht, Triple.rename_of_isGround hg f⟩
      · rintro ⟨u, hu, rfl⟩
        rw [Triple.isGround_rename] at hg
        rwa [Triple.rename_of_isGround hg f]
    · simpa only [mem_blankNodes_blankTriples] using h.bijOn.injOn
    · simp only [mem_blankTriples, h.mem_iff]
      constructor
      · rintro ⟨⟨u, hu, rfl⟩, hg⟩
        exact ⟨u, ⟨hu, by rwa [Triple.isGround_rename] at hg⟩, rfl⟩
      · rintro ⟨u, ⟨hu, hg⟩, rfl⟩
        exact ⟨⟨u, hu, rfl⟩, by rwa [Triple.isGround_rename]⟩
  · rintro ⟨hground, f, h⟩
    refine ⟨f, .of_injOn ?_ fun t => ?_⟩
    · simpa only [mem_blankNodes_blankTriples] using h.bijOn.injOn
    · cases hg : t.isGround with
      | true =>
        rw [← hground t hg]
        constructor
        · intro ht
          exact ⟨t, ht, Triple.rename_of_isGround hg f⟩
        · rintro ⟨u, hu, rfl⟩
          rw [Triple.isGround_rename] at hg
          rwa [Triple.rename_of_isGround hg f]
      | false =>
        have ht := h.mem_iff t
        simp only [mem_blankTriples, hg, and_true] at ht
        rw [ht]
        constructor
        · rintro ⟨u, ⟨hu, -⟩, rfl⟩
          exact ⟨u, hu, rfl⟩
        · rintro ⟨u, hu, rfl⟩
          exact ⟨u, ⟨hu, by rwa [Triple.isGround_rename] at hg⟩, rfl⟩

end Rdf

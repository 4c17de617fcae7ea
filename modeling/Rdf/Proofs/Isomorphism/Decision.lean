import Mathlib.Data.List.Perm.Subperm
import Rdf.Proofs.Isomorphism.Colours
import Rdf.Proofs.Isomorphism.Search
import Rdf.Vocabulary

/-!
The search for a renaming decides isomorphism.

What it finds is an isomorphism because a renaming that keeps nodes apart keeps triples apart, and
as many triples as there are on the other side cover it. What there is to be found is not lost,
since every isomorphism keeps the colours that candidates are chosen by.
-/

namespace Rdf

/-! ### Rows as sets -/

theorem eraseDupsBy_eq_eraseDups {ts : List Triple} (h : ∀ t ∈ ts, t.WellFormed) :
    ts.eraseDupsBy (fun t u => decide (t.key = u.key)) = ts.eraseDups := by
  have hloop : ∀ acc : List Triple, List.eraseDupsBy.loop (fun t u => decide (t.key = u.key)) ts acc =
      List.eraseDupsBy.loop (· == ·) ts acc := by
    induction ts with
    | nil => exact fun _ => rfl
    | cons t ts ih =>
      intro acc
      have hkey : (fun u : Triple => decide (t.key = u.key)) = fun u => t == u := by
        funext u
        rw [Bool.eq_iff_iff, decide_eq_true_iff, beq_iff_eq, eq_comm, eq_comm (a := t)]
        exact Triple.key_eq_key_iff (h t (by simp))
      have hrest := ih fun u hu => h u (by simp [hu])
      simp only [List.eraseDupsBy.loop, hkey, hrest]
  exact hloop []

theorem partition_isGround (ts : List Triple) :
    ts.partition Triple.isGround = (ts.filter Triple.isGround, blankTriples ts) := by
  rw [List.partition_eq_filter_filter]
  rfl

/-- Rows of well-formed triples hold the same of them when each row is in the other. -/
theorem all_isIn_iff {ts us : List Triple} (ht : ∀ t ∈ ts, t.WellFormed) :
    ts.all (·.isIn us) = true ↔ ∀ t ∈ ts, t ∈ us := by
  rw [List.all_eq_true]
  exact forall₂_congr fun t hmem => Triple.isIn_iff_mem (ht t hmem)

theorem map_key {ts : List Triple} (h : ∀ t ∈ ts, t.WellFormed) : ts.map Triple.key = ts :=
  (List.map_congr_left fun t ht => (h t ht).key_eq).trans (List.map_id ts)

/-! ### Sets of the same size -/

variable {left right : List Triple} {f : String → String}

/-- A renaming that keeps nodes apart and takes a set into one of the same size covers that. -/
theorem IsIsomorphism.of_length_eq (hl : left.Nodup) (hlen : right.length ≤ left.length)
    (hf : Set.InjOn f {id | id ∈ blankNodes left}) (h : ∀ t ∈ left, t.rename f ∈ right) :
    IsIsomorphism f left right := by
  refine .of_injOn hf fun t => ?_
  have hnodup : (left.map (Triple.rename f)).Nodup := by
    refine List.Nodup.map_on (fun t ht u hu heq => ?_) hl
    exact Triple.rename_inj hf (fun id hid => mem_blankNodes.2 ⟨t, ht, hid⟩)
      (fun id hid => mem_blankNodes.2 ⟨u, hu, hid⟩) heq
  have hsub : left.map (Triple.rename f) ⊆ right := by
    intro t ht
    obtain ⟨u, hu, rfl⟩ := List.mem_map.1 ht
    exact h u hu
  have hperm := (List.subperm_of_subset hnodup hsub).perm_of_length_le (by simpa using hlen)
  rw [← hperm.mem_iff, List.mem_map]

theorem length_blankTriples (ts : List Triple) :
    (ts.filter Triple.isGround).length + (blankTriples ts).length = ts.length := by
  rw [← List.length_append]
  exact (List.filter_append_perm Triple.isGround ts).length_eq

/-! ### Decision -/

/-- Among triples with blank nodes, a search over all nodes finds a renaming when there is an
isomorphism. -/
theorem search_decides (order : SearchOrder) (hl : left.Nodup) (hr : right.Nodup)
    (hwl : ∀ t ∈ left, t.WellFormed) (hlen : left.length = right.length)
    (hblank : ∀ t ∈ left, t.isGround = false) :
    Decides (match Colouring.stable left right with
      | none => .ok false
      | some colours =>
        let candidates := fun id => colours.right.nodesOf (colours.left.colour id)
        Renaming.completes left right (fun id => order.targets id (candidates id))
          (order.nodes candidates (colours.left.map (·.1))) [])
      (Isomorphic left right) := by
  cases hs : Colouring.stable left right with
  | none =>
    refine .no ?_
    rintro ⟨f, h⟩
    obtain ⟨colours, hsome, -⟩ := Colouring.stable_keeps h hl hr
    rw [hs] at hsome
    cases hsome
  | some colours =>
    have hover := Colouring.stable_isOver hs
    let candidates := fun id => colours.right.nodesOf (colours.left.colour id)
    have hperm := order.nodes_perm candidates (colours.left.map (·.1))
    rw [hover.left_eq] at hperm
    have hnodes : ∀ id, id ∈ order.nodes candidates (colours.left.map (·.1)) ↔
        id ∈ blankNodes left := by
      intro id
      rw [hover.left_eq]
      exact hperm.mem_iff
    have hnodup : (order.nodes candidates (colours.left.map (·.1))).Nodup := by
      rw [hover.left_eq]
      exact hperm.nodup_iff.2 (blankNodes_nodup left)
    refine (Renaming.completes_decides (fun id => id) [] hwl hnodup (by simp) (by simp)).congr
      ⟨?_, ?_⟩
    · rintro ⟨g, -, hg⟩
      refine ⟨g, .of_length_eq hl hlen.ge (hg.injOn.mono fun id hid => ?_) fun t ht => ?_⟩
      · exact .inr ((hnodes id).2 hid)
      · have hin : ∀ id ∈ t.blankIds, id ∈ order.nodes candidates (colours.left.map (·.1)) :=
          fun id hid => (hnodes id).2 (mem_blankNodes.2 ⟨t, ht, hid⟩)
        have hne : t.blankIds ≠ [] := by simpa [Triple.isGround] using hblank t ht
        obtain ⟨id, hid⟩ := List.exists_mem_of_ne_nil _ hne
        exact hg.keeps t ht ⟨id, hin id hid, hid⟩ fun id hid => .inr (hin id hid)
    · rintro ⟨f, h⟩
      obtain ⟨result, hsome, hkeeps⟩ := Colouring.stable_keeps h hl hr
      obtain rfl : colours = result := Option.some.inj (hs.symm.trans hsome)
      refine ⟨f, by simp, ⟨fun id hid => ?_, ?_, fun t ht _ _ => (h.mem_iff _).2 ⟨t, ht, rfl⟩⟩⟩
      · have hid := (hnodes id).1 hid
        change f id ∈ order.targets id (colours.right.nodesOf (colours.left.colour id))
        rw [(order.targets_perm _ _).mem_iff, ← hkeeps id hid]
        apply Colouring.mem_nodesOf (hover.right_eq ▸ blankNodes_nodup right)
        rw [hover.right_eq]
        exact h.bijOn.mapsTo hid
      · apply h.bijOn.injOn.mono
        intro id hid
        exact (hnodes id).1 (hid.resolve_left (by simp))

/-- The two halves of a set of triples decide it together: those without blank nodes are compared,
and for the others a renaming is searched for. -/
theorem halves_decide {search : Except Fault Bool} (hl : left.Nodup) (hr : right.Nodup)
    (hwl : ∀ t ∈ left, t.WellFormed) (hwr : ∀ t ∈ right, t.WellFormed)
    (hsearch : (blankTriples left).length = (blankTriples right).length →
      Decides search (Isomorphic (blankTriples left) (blankTriples right))) :
    Decides
      (if left.length ≠ right.length then .ok false
      else if !((left.filter Triple.isGround).all (·.isIn (right.filter Triple.isGround))
          && (right.filter Triple.isGround).all (·.isIn (left.filter Triple.isGround))) then
        .ok false
      else search) (Isomorphic left right) := by
  have hground : ((left.filter Triple.isGround).all (·.isIn (right.filter Triple.isGround))
      && (right.filter Triple.isGround).all (·.isIn (left.filter Triple.isGround))) = true ↔
      ∀ t, t.isGround = true → (t ∈ left ↔ t ∈ right) := by
    rw [Bool.and_eq_true, all_isIn_iff fun t ht => hwl t (List.mem_filter.1 ht).1,
      all_isIn_iff fun t ht => hwr t (List.mem_filter.1 ht).1]
    simp only [List.mem_filter, and_imp]
    constructor
    · rintro ⟨h1, h2⟩ t hg
      exact ⟨fun ht => (h1 t ht hg).1, fun ht => (h2 t ht hg).1⟩
    · intro h
      exact ⟨fun t ht hg => ⟨(h t hg).1 ht, hg⟩, fun t ht hg => ⟨(h t hg).2 ht, hg⟩⟩
  split
  · next hlen =>
    refine .no ?_
    rintro ⟨f, h⟩
    exact hlen (by simpa using (h.perm hl hr).length_eq)
  · next hlen =>
    have hlen : left.length = right.length := by simpa using hlen
    split
    · next hdiffer =>
      refine .no fun h => ?_
      have hsame := hground.2 (isomorphic_iff_blankTriples.1 h).1
      rw [Bool.not_eq_true', hsame] at hdiffer
      cases hdiffer
    · next hsame =>
      rw [Bool.not_eq_true', Bool.not_eq_false] at hsame
      have hsame := hground.1 hsame
      have hperm : (left.filter Triple.isGround).Perm (right.filter Triple.isGround) := by
        apply (List.perm_ext_iff_of_nodup (hl.filter _) (hr.filter _)).2
        intro t
        simp only [List.mem_filter]
        exact and_congr_left fun hg => hsame t hg
      have hblank : (blankTriples left).length = (blankTriples right).length := by
        have h1 := length_blankTriples left
        have h2 := length_blankTriples right
        have h3 := hperm.length_eq
        omega
      refine (hsearch hblank).congr ?_
      rw [@isomorphic_iff_blankTriples left]
      exact (and_iff_right hsame).symm

/-- Whatever the order of the search is, it tells whether the triples are isomorphic. -/
theorem isomorphicBy_decides (order : SearchOrder) (hwl : ∀ t ∈ left, t.WellFormed)
    (hwr : ∀ t ∈ right, t.WellFormed) :
    Decides (isomorphicBy order left right) (Isomorphic left right) := by
  have hl : ∀ t ∈ left.eraseDups, t.WellFormed := fun t ht => hwl t (List.mem_eraseDups.1 ht)
  have hr : ∀ t ∈ right.eraseDups, t.WellFormed := fun t ht => hwr t (List.mem_eraseDups.1 ht)
  have hblank : ∀ t ∈ blankTriples left.eraseDups, t.isGround = false := fun t ht =>
    (mem_blankTriples.1 ht).2
  have hset : Isomorphic left.eraseDups right.eraseDups ↔ Isomorphic left right :=
    Isomorphic.congr (fun _ => List.mem_eraseDups) fun _ => List.mem_eraseDups
  have hwbl : ∀ t ∈ blankTriples left.eraseDups, t.WellFormed := fun t ht =>
    hl t (mem_blankTriples.1 ht).1
  have hwbr : ∀ t ∈ blankTriples right.eraseDups, t.WellFormed := fun t ht =>
    hr t (mem_blankTriples.1 ht).1
  refine Decides.congr ?_ hset
  simp only [isomorphicBy, eraseDupsBy_eq_eraseDups hwl, eraseDupsBy_eq_eraseDups hwr,
    partition_isGround, map_key hwbl, map_key hwbr]
  apply halves_decide (nodup_eraseDups left) (nodup_eraseDups right) hl hr
  intro hlen
  exact search_decides order ((nodup_eraseDups left).filter _) ((nodup_eraseDups right).filter _)
    hwbl hlen hblank

/-- The answer of the search is whether a bijection between the blank nodes takes the one set of
triples to the other. It is the same for every order that nodes and candidates are tried in, and
for all rows of the same triples, in any order and with any repetitions. -/
theorem isomorphic_eq_ok_iff (hwl : ∀ t ∈ left, t.WellFormed) (hwr : ∀ t ∈ right, t.WellFormed) :
    ∃ answer : Bool, isomorphic left right = .ok answer ∧
      (answer = true ↔ Isomorphic left right) ∧
      ∀ (order : SearchOrder) (left' right' : List Triple), (∀ t, t ∈ left' ↔ t ∈ left) →
        (∀ t, t ∈ right' ↔ t ∈ right) → isomorphicBy order left' right' = .ok answer := by
  obtain ⟨answer, heq, hiff⟩ := isomorphicBy_decides .fewestFirst hwl hwr
  refine ⟨answer, heq, hiff, fun order left' right' hl hr => ?_⟩
  have hwl' : ∀ t ∈ left', t.WellFormed := fun t ht => hwl t ((hl t).1 ht)
  have hwr' : ∀ t ∈ right', t.WellFormed := fun t ht => hwr t ((hr t).1 ht)
  obtain ⟨other, heq', hiff'⟩ := isomorphicBy_decides order hwl' hwr'
  have hsame : other = answer := by
    rw [Bool.eq_iff_iff, hiff, hiff', Isomorphic.congr hl hr]
  rw [heq', hsame]

/-- Two blank nodes that refer to each other. -/
def ring (a b : String) : List Triple :=
  [⟨.blank a, .iri Vocabulary.rest, .blank b⟩, ⟨.blank b, .iri Vocabulary.rest, .blank a⟩]

theorem isomorphic_ring : isomorphic (ring "a" "b") (ring "x" "y") = .ok true := by
  have hl : ∀ t ∈ ring "a" "b", t.WellFormed := by decide
  have hr : ∀ t ∈ ring "x" "y", t.WellFormed := by decide
  obtain ⟨answer, heq, hiff, -⟩ := isomorphic_eq_ok_iff hl hr
  have hiso : Isomorphic (ring "a" "b") (ring "x" "y") := by
    refine ⟨fun id => if id = "a" then "x" else "y", .of_injOn ?_ ?_⟩
    · intro c hc d hd heq
      have hmem : ∀ e ∈ blankNodes (ring "a" "b"), e = "a" ∨ e = "b" := by decide
      obtain rfl | rfl := hmem c hc <;> obtain rfl | rfl := hmem d hd <;> simp_all
    · simp [ring, Triple.rename, Term.rename, eq_comm]
  rw [heq, hiff.2 hiso]

end Rdf

import Mathlib.Data.List.Pairwise
import Rdf.Proofs.Turtle.Nesting

/-!
What lists are compacted, and what is left of their triples.

The triples that collections stand for are left out of a document, and the collections give them
back. Each collection is written at one place, and from each of them the way up through the
collections around it leads to a triple that is written.
-/

namespace Rdf.Turtle

variable {triples : List Triple} {chains forest first second : List Chain} {chain : Chain}
  {t item : Term} {id : String} {options : Options} {spaces : Spaces}

/-- The triples of a row that are part of a collection. -/
def hidden (triples : List Triple) (chains : List Chain) : List Triple :=
  (triples.zipIdx.filter fun entry => (compacted triples chains).contains entry.2).map (·.1)

/-- A term is an item of the list that another is the head of. -/
def IsItem (chains : List Chain) (item list : Term) : Prop :=
  ∃ chain ∈ chains, list = .blank chain.head ∧ item ∈ chain.items

/-- Nothing is lost by writing chains as collections, and everything is written once. -/
structure IsCompaction (triples : List Triple) (chains : List Chain) : Prop where
  /-- Each item has a cell of its own, and the first cell is the head. -/
  cells : ∀ chain ∈ chains, chain.ids.head? = some chain.head ∧ chain.ids.Nodup ∧
    chain.ids.length = chain.items.length
  disjoint : chains.Pairwise fun a b => a.ids.Disjoint b.ids
  removed : ∀ i, i ∈ compacted triples chains ↔ ∃ t, triples[i]? = some t ∧
    (∃ chain ∈ chains, ∃ id ∈ chain.ids, t.subject = .blank id) ∧
    (t.predicate = .iri Vocabulary.first ∨ t.predicate = .iri Vocabulary.rest)
  expanded : (chains.flatMap Chain.triples).Perm (hidden triples chains)
  /-- No cell is the subject of a triple that is left. -/
  subjects : ∀ t ∈ visible triples chains, ∀ chain ∈ chains, ∀ id ∈ chain.ids, t.subject ≠ .blank id
  /-- Only the head of a list is seen from outside. -/
  inner : ∀ chain ∈ chains, ∀ id ∈ chain.ids, id ≠ chain.head →
    (∀ t ∈ visible triples chains, .blank id ∉ t.terms) ∧
    ∀ other ∈ chains, .blank id ∉ other.items
  /-- The head of a list is at one place, and that is not in the list itself. -/
  once : ∀ chain ∈ chains, ((visible triples chains).map (·.object) ++
    chains.flatMap Chain.items).count (.blank chain.head) = 1 ∧ .blank chain.head ∉ chain.items
  /-- The way up ends at the object of a triple that is left. -/
  rooted : ∀ chain ∈ chains, ∃ t ∈ visible triples chains,
    Relation.ReflTransGen (IsItem chains) (.blank chain.head) t.object
  /-- The way down ends, too. -/
  wellFounded : WellFounded (IsItem chains)
  /-- The printer needs to keep no account of the lists that it is in. -/
  printed : ∀ options spaces, ∀ chain ∈ chains, term options spaces chains (.blank chain.head) = do
    let items ← chain.items.mapM (term options spaces chains)
    return '(' :: spaced items ++ [')']

/-! ### Positions -/

namespace Indexed

theorem mem_compacted {i : Nat} : i ∈ compacted triples chains ↔
    i < triples.length ∧ i ∈ chains.flatMap Chain.indices := by
  simp [compacted]

/-- A cell is the subject of triples to an item and to a rest only. -/
theorem IsChain.predicate_of_mem {ts : Indexed} (h : IsChain ts chain) (hid : id ∈ chain.ids)
    {entry : Triple × Nat} (hentry : entry ∈ ts.outgoing id) :
    entry.1.predicate = .iri Vocabulary.first ∨ entry.1.predicate = .iri Vocabulary.rest := by
  obtain ⟨n, hn, rfl⟩ := List.mem_iff_getElem.1 hid
  have hall := h.links.forall₂
  have hget := hall.get hn (hall.length_eq ▸ hn)
  have hpair := (outgoing_of_cell hget).mem_iff.1 hentry
  obtain rfl | rfl : _ ∨ _ := by simpa using hpair
  · exact .inl rfl
  · exact .inr rfl

theorem mem_compacted_iff (h : ∀ chain ∈ chains, IsChain triples.zipIdx chain) (i : Nat) :
    i ∈ compacted triples chains ↔ ∃ t, triples[i]? = some t ∧
      (∃ chain ∈ chains, ∃ id ∈ chain.ids, t.subject = .blank id) ∧
      (t.predicate = .iri Vocabulary.first ∨ t.predicate = .iri Vocabulary.rest) := by
  constructor
  · intro hi
    obtain ⟨hlt, hindex⟩ := mem_compacted.1 hi
    have hmem : (triples[i], i) ∈ triples.zipIdx := by
      simp [List.mk_mem_zipIdx_iff_getElem?]
    obtain ⟨id, hid, hsubject⟩ := isAbout_iff.1 ((mem_indices_iff h hmem).1 hindex)
    obtain ⟨chain, hchain, hid⟩ := List.mem_flatMap.1 hid
    have hout : (triples[i], i) ∈ outgoing triples.zipIdx id :=
      List.mem_filter.2 ⟨hmem, by simpa using hsubject⟩
    exact ⟨triples[i], by simp [hlt], ⟨chain, hchain, id, hid, hsubject⟩,
      (h chain hchain).predicate_of_mem hid hout⟩
  · rintro ⟨t, ht, ⟨chain, hchain, id, hid, hsubject⟩, -⟩
    have hmem : (t, i) ∈ triples.zipIdx := List.mk_mem_zipIdx_iff_getElem?.2 ht
    refine mem_compacted.2 ⟨(List.getElem?_eq_some_iff.1 ht).1, ?_⟩
    exact (mem_indices_iff h hmem).2
      (isAbout_iff.2 ⟨id, List.mem_flatMap.2 ⟨chain, hchain, hid⟩, hsubject⟩)

end Indexed

theorem hidden_perm (triples : List Triple) (chains : List Chain) :
    triples.Perm (visible triples chains ++ hidden triples chains) := by
  have hsplit := (List.filter_append_perm
    (fun entry : Triple × Nat => !(compacted triples chains).contains entry.2)
    triples.zipIdx).symm.map (·.1)
  simpa [visible, hidden, List.zipIdx_map_fst] using hsplit

namespace Forest

theorem expanded_perm (h : Forest triples chains) :
    (chains.flatMap Chain.triples).Perm (hidden triples chains) :=
  (List.perm_append_left_iff _).1 (h.perm.symm.trans (hidden_perm triples chains))

theorem subject_ne (h : Forest triples chains) {t : Triple} (ht : t ∈ visible triples chains)
    (hid : id ∈ chainIds chains) : t.subject ≠ .blank id := by
  intro hsubject
  rw [h.visible_eq] at ht
  have hnot := (List.mem_filter.1 ht).2
  simp [isAbout_iff.2 ⟨id, hid, hsubject⟩] at hnot

theorem disjoint_ids (h : Forest triples chains) :
    chains.Pairwise fun a b => a.ids.Disjoint b.ids := (List.nodup_flatMap.1 h.nodup).2

theorem head_of_mem_places (h : Forest triples chains) (hchain : chain ∈ chains)
    (hid : id ∈ chain.ids) (hplace : .blank id ∈ places triples chains) : id = chain.head := by
  obtain ⟨other, hother, rfl⟩ := h.heads id (List.mem_flatMap.2 ⟨chain, hchain, hid⟩) hplace
  refine Classical.by_contradiction fun hne => ?_
  have hsymm : Std.Symm fun a b : Chain => a.ids.Disjoint b.ids := ⟨fun _ _ h _ ha hb => h hb ha⟩
  have hdisjoint := h.disjoint_ids.forall hchain hother fun he => hne (he ▸ rfl)
  exact hdisjoint hid (by simp [Chain.ids_eq])

/-- Only the head of a list is in a well-formed triple that is left. -/
theorem head_of_mem_terms (h : Forest triples chains) (hchain : chain ∈ chains)
    (hid : id ∈ chain.ids) {t : Triple} (ht : t ∈ visible triples chains) (hform : t.WellFormed)
    (hterm : .blank id ∈ t.terms) : id = chain.head := by
  obtain hsubject | hpredicate | hobject : .blank id = t.subject ∨ .blank id = t.predicate ∨
      .blank id = t.object := by simpa [Triple.terms] using hterm
  · exact absurd hsubject.symm (h.subject_ne ht (List.mem_flatMap.2 ⟨chain, hchain, hid⟩))
  · have hiri := hform.2.1
    rw [← hpredicate] at hiri
    exact Bool.noConfusion hiri
  · have hplace := List.mem_map.2 ⟨t, ht, hobject.symm⟩
    exact h.head_of_mem_places hchain hid (List.mem_append_left _ hplace)

theorem not_mem_own_items (h : Forest triples chains) (hchain : chain ∈ chains) :
    .blank chain.head ∉ chain.items := by
  obtain ⟨level, hlevel⟩ := h.level
  exact fun hitem => Nat.lt_irrefl _ (hlevel chain hchain chain hchain hitem)

theorem exists_root (h : Forest triples chains) (hchain : chain ∈ chains) :
    ∃ t ∈ visible triples chains,
      Relation.ReflTransGen (IsItem chains) (.blank chain.head) t.object := by
  obtain ⟨level, hlevel⟩ := h.level
  induction hn : level chain.head using Nat.strongRecOn generalizing chain with
  | ind n ih =>
    have hplace : Term.blank chain.head ∈ places triples chains :=
      List.count_pos_iff.1 (by rw [h.once chain hchain]; exact Nat.one_pos)
    obtain hobject | hitem := List.mem_append.1 hplace
    · obtain ⟨t, ht, hobject⟩ := List.mem_map.1 hobject
      exact ⟨t, ht, hobject ▸ .refl⟩
    · obtain ⟨parent, hparent, hitem⟩ := List.mem_flatMap.1 hitem
      have hlower := hlevel parent hparent chain hchain hitem
      obtain ⟨t, ht, hup⟩ := ih _ (hn ▸ hlower) hparent rfl
      exact ⟨t, ht, .head ⟨parent, hparent, rfl, hitem⟩ hup⟩

theorem wellFounded_isItem (h : Forest triples chains) : WellFounded (IsItem chains) := by
  obtain ⟨level, hlevel⟩ := h.level
  let top := deepest (chains.map fun chain => level chain.head)
  have htop : ∀ chain ∈ chains, level chain.head ≤ top := fun chain hchain =>
    deepest_le_iff.1 (Nat.le_refl top) _ (List.mem_map_of_mem hchain)
  -- what is not the head of a list comes last, behind the lists from the top level on
  let height (t : Term) : Nat :=
    if ∃ chain ∈ chains, t = .blank chain.head then top + 1 - (t.blankId?.elim 0 level) else 0
  refine Subrelation.wf (fun {item list} hitem => ?_) (measure height).wf
  obtain ⟨chain, hchain, rfl, hitem⟩ := hitem
  have hlist : height (.blank chain.head) = top + 1 - level chain.head :=
    if_pos ⟨chain, hchain, rfl⟩
  have hle := htop chain hchain
  show height item < height (.blank chain.head)
  by_cases hhead : ∃ inner ∈ chains, item = .blank inner.head
  · obtain ⟨inner, hinner, rfl⟩ := hhead
    have hinnerHeight : height (.blank inner.head) = top + 1 - level inner.head :=
      if_pos ⟨inner, hinner, rfl⟩
    have hlower := hlevel chain hchain inner hinner hitem
    have hle' := htop inner hinner
    omega
  · have hflat : height item = 0 := if_neg hhead
    omega

/-! ### Printing -/

theorem find?_of_atHand (h : Forest triples forest) {level : String → Nat}
    (hfirst : AtHand forest level first (.blank id))
    (hsecond : AtHand forest level second (.blank id))
    (hfind : first.find? (·.head = id) = some chain) :
    second.find? (·.head = id) = some chain := by
  obtain ⟨hmem, rfl⟩ := find?_head hfind
  have hforest := hfirst.subset hmem
  have hother := hsecond.mem chain hforest chain hforest rfl (Nat.le_refl _)
  cases hfind' : second.find? (·.head = chain.head) with
  | none => exact absurd (List.find?_eq_none.1 hfind' chain hother) (by simp)
  | some found =>
    obtain ⟨hfound, hsame⟩ := find?_head hfind'
    rw [h.eq_of_head (hsecond.subset hfound) hforest hsame]

theorem mapM_congr {f g : Term → Written} {items : List Term}
    (h : ∀ item ∈ items, f item = g item) : items.mapM f = items.mapM g := by
  induction items with
  | nil => rfl
  | cons item items ih =>
    obtain ⟨hitem, hitems⟩ := List.forall_mem_cons.1 h
    rw [List.mapM_cons, List.mapM_cons, hitem, ih hitems]

theorem term_of_find? (h : chains.find? (·.head = id) = some chain) :
    term options spaces chains (.blank id) = do
      let items ← chain.items.mapM (term options spaces (chains.eraseP (·.head = id)))
      return '(' :: spaced items ++ [')'] := by
  rw [term]
  split <;> simp_all

theorem term_of_find?_none (h : chains.find? (·.head = id) = none) :
    term options spaces chains (.blank id) = Spelling.blank id := by
  rw [term]
  split <;> simp_all

/-- A term is written with any chains that lack only such as cannot be in it. -/
theorem term_congr (h : Forest triples forest) {level : String → Nat}
    (hlevel : ∀ parent ∈ forest, ∀ chain ∈ forest, .blank chain.head ∈ parent.items →
      level parent.head < level chain.head)
    (hfirst : AtHand forest level first t) (hsecond : AtHand forest level second t) :
    term options spaces first t = term options spaces second t := by
  fun_induction term options spaces first t generalizing second with
  | case1 => rw [term]
  | case2 chains id chain hfind ih =>
    have hfind' := h.find?_of_atHand hfirst hsecond hfind
    have hitems := mapM_congr fun item hitem =>
      ih item (hfirst.down hlevel hfind hitem) (hsecond.down hlevel hfind' hitem)
    rw [term_of_find? hfind', hitems]
  | case3 chains id hfind =>
    cases hfind' : second.find? (·.head = id) with
    | none => exact (term_of_find?_none hfind').symm
    | some chain =>
      rw [h.find?_of_atHand hsecond hfirst hfind'] at hfind
      simp at hfind
  | case4 => rw [term]
  | case5 => rw [term]

theorem term_head (h : Forest triples forest) (hchain : chain ∈ forest) :
    term options spaces forest (.blank chain.head) = do
      let items ← chain.items.mapM (term options spaces forest)
      return '(' :: spaced items ++ [')'] := by
  obtain ⟨level, hlevel⟩ := h.level
  have hstart : ∀ t, AtHand forest level forest t := AtHand.start forest level
  obtain ⟨found, hfind⟩ : ∃ found, forest.find? (·.head = chain.head) = some found := by
    rw [← Option.isSome_iff_exists, List.find?_isSome]
    exact ⟨chain, hchain, by simp⟩
  obtain ⟨hfound, hsame⟩ := find?_head hfind
  obtain rfl := h.eq_of_head hfound hchain hsame
  have hitems := mapM_congr fun item hitem => @term_congr _ _ _ _ item options spaces h level hlevel
    ((hstart _).down hlevel hfind hitem) (hstart item)
  rw [term_of_find? hfind, hitems]

end Forest

/-- Compaction loses nothing and writes everything once. -/
theorem isCompaction_collections (h : ∀ t ∈ triples, t.WellFormed) :
    IsCompaction triples (collections triples) := by
  have hforest := Forest.of_collections triples
  have hall : ∀ chain ∈ collections triples, Indexed.IsChain triples.zipIdx chain :=
    fun chain hchain => Indexed.isChain_of_mem (List.mem_of_mem_filter hchain)
  have hvisible : ∀ t ∈ visible triples (collections triples), t.WellFormed := by
    rw [hforest.visible_eq]
    exact fun t ht => h t (List.mem_of_mem_filter ht)
  exact {
    cells chain hchain := ⟨by simp [Chain.ids_eq], (hall chain hchain).links.nodup,
      (hforest.length chain hchain).symm⟩
    disjoint := hforest.disjoint_ids
    removed := Indexed.mem_compacted_iff hall
    expanded := hforest.expanded_perm
    subjects t ht chain hchain id hid :=
      hforest.subject_ne ht (List.mem_flatMap.2 ⟨chain, hchain, hid⟩)
    inner chain hchain id hid hne :=
      ⟨fun t ht hterm => hne (hforest.head_of_mem_terms hchain hid ht (hvisible t ht) hterm),
        fun other hother hitem =>
          hne (hforest.head_of_mem_places hchain hid (Forest.mem_places_of_item hother hitem))⟩
    once chain hchain := ⟨hforest.once chain hchain, hforest.not_mem_own_items hchain⟩
    rooted chain hchain := hforest.exists_root hchain
    wellFounded := hforest.wellFounded_isItem
    printed options spaces chain hchain := hforest.term_head hchain }

/-- The items of one list are a list and a list that is empty. -/
theorem isCompaction_collections_nested :
    let triples : List Triple :=
      [⟨.blank "b", .iri Vocabulary.rest, .iri Vocabulary.nil⟩,
        ⟨.iri ⟨"urn:s"⟩, .iri ⟨"urn:p"⟩, .blank "a"⟩,
        ⟨.blank "a", .iri Vocabulary.first, .blank "b"⟩,
        ⟨.blank "b", .iri Vocabulary.first, .blank "x"⟩,
        ⟨.blank "a", .iri Vocabulary.rest, .blank "c"⟩,
        ⟨.blank "c", .iri Vocabulary.first, .iri Vocabulary.nil⟩,
        ⟨.blank "c", .iri Vocabulary.rest, .iri Vocabulary.nil⟩,
        ⟨.blank "x", .iri Vocabulary.first, .blank "x"⟩,
        ⟨.blank "x", .iri Vocabulary.rest, .iri Vocabulary.nil⟩]
    IsCompaction triples (collections triples) ∧
      (collections triples).map (·.ids) = [["b"], ["a", "c"]] ∧
      compacted triples (collections triples) = [0, 2, 3, 4, 5, 6] :=
  ⟨isCompaction_collections (by decide), by decide, by decide⟩

end Rdf.Turtle

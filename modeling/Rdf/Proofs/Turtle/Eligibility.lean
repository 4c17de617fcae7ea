import Mathlib.Data.List.Chain
import Mathlib.Data.List.Permutation
import Mathlib.Data.Nat.Find
import Rdf.Proofs.Turtle.Compaction

/-!
Which lists are written as collections.

What makes a list a collection is said here of the triples alone, without their positions: its
cells lead to the empty list, one triple refers to its head and one to each later cell, and the way
up through the lists that it is an item of comes to an end. Neither the walk along a list nor the
way up needs its bound: no node is met twice.
-/

namespace Rdf.Turtle

variable {triples : List Triple} {t next item : Term} {ids row : List String} {items : List Term}
  {id head inner outer a b : String} {chain parent : Chain}

/-! ### Lists -/

def triplesFrom (triples : List Triple) (id : String) : List Triple :=
  triples.filter fun t => t.subject = .blank id

def triplesTo (triples : List Triple) (id : String) : List Triple :=
  triples.filter fun t => t.object = .blank id

/-- A cell has two triples of its own, to its item and to what follows it. -/
def IsCell (triples : List Triple) (id : String) (item next : Term) : Prop :=
  (triplesFrom triples id).Perm
    [⟨.blank id, .iri Vocabulary.first, item⟩, ⟨.blank id, .iri Vocabulary.rest, next⟩]

/-- From a term on, cells with these nodes and items lead to the end of a list. -/
inductive ListFrom (triples : List Triple) : Term → List String → List Term → Prop
  | nil : ListFrom triples (.iri Vocabulary.nil) [] []
  | cons {id : String} {item next : Term} {ids : List String} {items : List Term} :
    IsCell triples id item next → ListFrom triples next ids items →
    ListFrom triples (.blank id) (id :: ids) (item :: items)

/-- A node that is referred to once, and not as the rest of a list. -/
def IsEntry (triples : List Triple) (id : String) : Prop :=
  ∃ t, triplesTo triples id = [t] ∧ t.predicate ≠ .iri Vocabulary.rest

/-- A node that is referred to once, as the rest of a list. -/
def IsContinuation (triples : List Triple) (id : String) : Prop :=
  ∃ t, triplesTo triples id = [t] ∧ t.predicate = .iri Vocabulary.rest

/-- A list that is referred to at its head only. -/
structure IsList (triples : List Triple) (head : String) (ids : List String)
    (items : List Term) : Prop where
  list : ListFrom triples (.blank head) ids items
  entry : IsEntry triples head
  later : ∀ id ∈ ids.tail, IsContinuation triples id

/-- A node that only a cell of the list of another refers to, as its item. -/
def IsIn (triples : List Triple) (inner outer : String) : Prop :=
  ∃ ids items, IsList triples outer ids items ∧
    ∃ id ∈ ids, triplesTo triples inner = [⟨.blank id, .iri Vocabulary.first, .blank inner⟩]

/-- The way up from a node, through the lists that it is in, comes to an end. -/
def IsGrounded (triples : List Triple) (head : String) : Prop :=
  Acc (fun outer inner => IsIn triples inner outer) head

/-- The walk from a head goes on from one node to another. It asks nothing of the head, should it
come back there. -/
def Visits (triples : List Triple) (head a b : String) : Prop :=
  (∃ item, IsCell triples a item (.blank b)) ∧ (b = head ∨ IsContinuation triples b)

/-- Both ways along the triples, from cell to cell and from list to list, end by themselves, so
their bounds decide nothing. -/
structure Ends (triples : List Triple) : Prop where
  walk : ∀ head row, IsEntry triples head → (head :: row).IsChain (Visits triples head) →
    (head :: row).Nodup ∧ (head :: row).length ≤ triples.length
  walk_bound : ∀ bound t, triples.length ≤ bound →
    Indexed.walk triples.zipIdx bound t = Indexed.walk triples.zipIdx triples.length t
  up : ∀ head ids items row, IsList triples head ids items → (head :: row).Nodup →
    (head :: row).IsChain (IsIn triples) → (head :: row).length ≤ triples.length
  up_bound : let chains := Indexed.chains triples.zipIdx
    ∀ chain ∈ chains, ∀ bound, chains.length ≤ bound →
      Indexed.isRooted triples.zipIdx chains bound chain.head =
        Indexed.isRooted triples.zipIdx chains chains.length chain.head

/-! ### Positions do not matter -/

namespace Indexed

theorem map_outgoing (triples : List Triple) (id : String) :
    (outgoing triples.zipIdx id).map (·.1) = triplesFrom triples id :=
  map_filter_zipIdx (fun t => t.subject = .blank id) triples

theorem map_incoming (triples : List Triple) (id : String) :
    (incoming triples.zipIdx id).map (·.1) = triplesTo triples id :=
  map_filter_zipIdx (fun t => t.object = .blank id) triples

theorem exists_incoming_iff (p : Triple → Prop) :
    (∃ entry, incoming triples.zipIdx id = [entry] ∧ p entry.1) ↔
      ∃ t, triplesTo triples id = [t] ∧ p t := by
  rw [← map_incoming]
  constructor
  · intro ⟨entry, hin, hp⟩
    exact ⟨entry.1, by rw [hin]; rfl, hp⟩
  · intro ⟨t, hto, hp⟩
    obtain ⟨entry, hin, rfl⟩ := List.map_eq_singleton_iff.1 hto
    exact ⟨entry, hin, hp⟩

theorem isHead_iff_isEntry : isHead triples.zipIdx id = true ↔ IsEntry triples id :=
  isHead_iff.trans (exists_incoming_iff fun t => t.predicate ≠ .iri Vocabulary.rest)

theorem isRest_iff_isContinuation :
    isRest triples.zipIdx id = true ↔ IsContinuation triples id :=
  isRest_iff.trans (exists_incoming_iff fun t => t.predicate = .iri Vocabulary.rest)

theorem isCell_iff : IsCell triples id item next ↔
    ∃ i j, cell? triples.zipIdx id = some ⟨i, j, item, next⟩ := by
  constructor
  · intro h
    rw [IsCell, List.perm_pair, ← map_outgoing] at h
    have hne : Vocabulary.rest ≠ Vocabulary.first := by decide
    obtain h | h := h
    all_goals
      obtain ⟨⟨_, i⟩, _, hout, rfl, hlater⟩ := List.map_eq_cons_iff.1 h
      obtain ⟨⟨_, j⟩, rfl, rfl⟩ := List.map_eq_singleton_iff.1 hlater
    · exact ⟨i, j, by simp [cell?, hout]⟩
    · exact ⟨j, i, by simp [cell?, hout, hne]⟩
  · intro ⟨i, j, hcell⟩
    have hout := (outgoing_of_cell hcell).map (·.1)
    rwa [map_outgoing] at hout

theorem listFrom_iff : ListFrom triples t ids items ↔
    ∃ cells, Links triples.zipIdx t cells ∧ linkIds t cells = ids ∧ cells.map (·.item) = items := by
  constructor
  · intro h
    induction h with
    | nil => exact ⟨[], .nil, rfl, rfl⟩
    | cons hcell _ ih =>
      obtain ⟨i, j, hcell⟩ := isCell_iff.1 hcell
      obtain ⟨cells, hlinks, rfl, rfl⟩ := ih
      exact ⟨_, .cons hcell hlinks, linkIds_blank _ _ _, rfl⟩
  · intro ⟨cells, hlinks, hids, hitems⟩
    subst hids hitems
    induction hlinks with
    | nil => exact .nil
    | cons hcell _ ih =>
      rw [linkIds_blank]
      exact .cons (isCell_iff.2 ⟨_, _, hcell⟩) ih

/-! ### The walk along a list -/

theorem mem_linkIds {cells : List Cell} :
    id ∈ linkIds t cells ↔ .blank id ∈ t :: cells.map (·.next) := by
  simp [linkIds, Term.blankId?_eq_some_iff]

/-- The walk finds the cells of a list when its bound is not less than their number. -/
theorem walk_eq_some {ts : Indexed} {bound : Nat} {cells : List Cell} (h : Links ts t cells)
    (hrests : ∀ id ∈ linkIds t cells, ts.isRest id = true) (hbound : cells.length ≤ bound) :
    ts.walk bound t = some cells := by
  induction h generalizing bound with
  | nil => simp [walk]
  | cons hcell _ ih =>
    rw [linkIds_blank] at hrests
    obtain ⟨hrest, hrests⟩ := List.forall_mem_cons.1 hrests
    cases bound with
    | zero => simp at hbound
    | succ bound =>
      have hlater := ih hrests (Nat.le_of_succ_le_succ hbound)
      simp [walk, hrest, hcell, hlater]

/-- A list has no more cells than there are triples, since each has triples of its own. -/
theorem Links.length_le {ts : Indexed} {cells : List Cell} (h : Links ts t cells) :
    cells.length ≤ ts.length := by
  have hsubset : (linkIds t cells).map Term.blank ⊆ ts.map (·.1.subject) := by
    intro term hterm
    obtain ⟨id, hid, rfl⟩ := List.mem_map.1 hterm
    obtain ⟨later, hlater, -⟩ := h.of_mem hid
    cases hlater with
    | cons hcell _ => exact List.mem_map.2 ⟨_, rest_mem hcell, rfl⟩
  have hnodup := h.nodup.map fun a b => Term.blank.inj
  have hle := hnodup.length_le_of_subset hsubset
  rwa [List.length_map, List.length_map, h.forall₂.length_eq] at hle

theorem walk_bound {ts : Indexed} {bound : Nat} (hbound : ts.length ≤ bound) (t : Term) :
    ts.walk bound t = ts.walk ts.length t := by
  refine Option.ext fun cells => ⟨fun h => ?_, fun h => ?_⟩
  all_goals obtain ⟨hlinks, hrests⟩ := Links.of_walk h
  · exact walk_eq_some hlinks hrests hlinks.length_le
  · exact walk_eq_some hlinks hrests (hlinks.length_le.trans hbound)

theorem chain?_eq_some {ts : Indexed} (h : IsChain ts chain) :
    ts.chain? chain.head = some chain := by
  obtain ⟨head, cells⟩ := chain
  obtain ⟨hhead, hlinks, hrests⟩ := h
  cases hlinks with
  | @cons _ cell cells hcell hlater =>
    have hwalk := walk_eq_some hlater
      (fun id hid => hrests id (mem_linkIds.1 hid)) hlater.length_le
    simp [chain?, hhead, hcell, hwalk]

theorem mem_chains_iff {ts : Indexed} : chain ∈ ts.chains ↔ IsChain ts chain := by
  refine ⟨isChain_of_mem, fun h => List.mem_filterMap.2 ⟨chain.head, ?_, chain?_eq_some h⟩⟩
  obtain ⟨head, cells⟩ := chain
  cases h.links with
  | cons hcell _ => exact List.mem_eraseDups.2 (List.mem_filterMap.2 ⟨_, rest_mem hcell, rfl⟩)

theorem isList_iff : IsList triples head ids items ↔
    ∃ chain ∈ chains triples.zipIdx, chain.head = head ∧ chain.ids = ids ∧ chain.items = items := by
  constructor
  · intro ⟨hlist, hentry, hlater⟩
    obtain ⟨cells, hlinks, rfl, rfl⟩ := listFrom_iff.1 hlist
    have hhead := isHead_iff_isEntry.2 hentry
    refine ⟨⟨head, cells⟩, mem_chains_iff.2 ⟨hhead, hlinks, fun b hb => ?_⟩, rfl, rfl, rfl⟩
    exact isRest_iff_isContinuation.2 (hlater b (List.mem_filterMap.2 ⟨_, hb, rfl⟩))
  · rintro ⟨chain, hchain, rfl, rfl, rfl⟩
    have h := mem_chains_iff.1 hchain
    refine ⟨listFrom_iff.2 ⟨chain.cells, h.links, rfl, rfl⟩, isHead_iff_isEntry.1 h.isHead, ?_⟩
    intro id hid
    rw [Chain.ids_eq, List.tail_cons] at hid
    obtain ⟨next, hnext, hblank⟩ := List.mem_filterMap.1 hid
    obtain rfl := Term.blankId?_eq_some_iff.1 hblank
    exact isRest_iff_isContinuation.1 (h.rests id hnext)

/-! ### The way up -/

/-- A cell refers to its item only as an item. -/
theorem IsChain.mem_items_of_first {ts : Indexed} (h : IsChain ts chain) (hid : id ∈ chain.ids)
    {i : Nat} (hout : (⟨.blank id, .iri Vocabulary.first, item⟩, i) ∈ ts.outgoing id) :
    item ∈ chain.items := by
  obtain ⟨n, hn, rfl⟩ := List.mem_iff_getElem.1 hid
  have hall := h.links.forall₂
  have hn' : n < chain.cells.length := hall.length_eq ▸ hn
  have hpair := (outgoing_of_cell (hall.get hn hn')).mem_iff.1 hout
  have hne : Vocabulary.first ≠ Vocabulary.rest := by decide
  simp only [List.mem_pair, Prod.mk.injEq, Triple.mk.injEq, Term.iri.injEq, hne, false_and,
    and_false, or_false] at hpair
  exact List.mem_map.2 ⟨_, List.getElem_mem hn', hpair.1.2.2.symm⟩

theorem isIn_iff (hinner : IsEntry triples inner) : IsIn triples inner outer ↔
    ∃ parent, parent? triples.zipIdx (chains triples.zipIdx) inner = some parent ∧
      parent.head = outer := by
  constructor
  · intro ⟨ids, items, hlist, id, hid, hto⟩
    obtain ⟨parent, hparent, hhead, rfl, -⟩ := isList_iff.1 hlist
    have h := mem_chains_iff.1 hparent
    rw [← map_incoming] at hto
    obtain ⟨⟨_, i⟩, hin, rfl⟩ := List.map_eq_singleton_iff.1 hto
    have hmem := (mem_incoming.1 (hin ▸ List.mem_singleton_self _)).1
    have hitem := h.mem_items_of_first hid (List.mem_filter.2 ⟨hmem, decide_eq_true rfl⟩)
    exact ⟨parent, parent?_eq hparent (isHead_iff_isEntry.2 hinner) hitem, hhead⟩
  · rintro ⟨parent, hparent, rfl⟩
    obtain ⟨⟨t, i⟩, hin, hne⟩ := isHead_iff.1 (isHead_iff_isEntry.2 hinner)
    simp only [parent?, hin] at hparent
    have hmem := List.mem_of_find?_eq_some hparent
    have h := mem_chains_iff.1 hmem
    obtain ⟨id, hid, u, hout⟩ := h.mem_indices.1 (by simpa using List.find?_some hparent)
    obtain ⟨htmem, hobject⟩ := mem_incoming.1 (hin ▸ List.mem_singleton_self _)
    obtain ⟨humem, hsubject⟩ := List.mem_filter.1 hout
    obtain rfl := eq_of_mem_zipIdx htmem humem
    refine ⟨parent.ids, parent.items, isList_iff.2 ⟨parent, hmem, rfl, rfl, rfl⟩, id, hid, ?_⟩
    have hfirst := (h.predicate_of_mem hid hout).resolve_right hne
    rw [← map_incoming, hin]
    obtain ⟨subject, predicate, object⟩ := t
    simp_all

theorem isRooted_of_parent {ts : Indexed} {forest : List Chain}
    (h : ts.parent? forest head = some parent) (n : Nat) :
    ts.isRooted forest (n + 1) head = ts.isRooted forest n parent.head := by
  simp [isRooted, h]

theorem isRooted_of_parent_eq_none {ts : Indexed} {forest : List Chain}
    (h : ts.parent? forest head = none) (n : Nat) : ts.isRooted forest n head = true := by
  cases n <;> simp [isRooted, h]

theorem isRooted_succ {ts : Indexed} {forest : List Chain} {n : Nat}
    (h : ts.isRooted forest n head = true) : ts.isRooted forest (n + 1) head = true := by
  induction n generalizing head with
  | zero => exact isRooted_of_parent_eq_none (Option.isNone_iff_eq_none.1 h) 1
  | succ n ih =>
    cases hparent : ts.parent? forest head with
    | none => exact isRooted_of_parent_eq_none hparent _
    | some parent =>
      rw [isRooted_of_parent hparent] at h ⊢
      exact ih h

theorem isRooted_of_le {ts : Indexed} {forest : List Chain} {m n : Nat} (hle : m ≤ n)
    (h : ts.isRooted forest m head = true) : ts.isRooted forest n head = true := by
  induction hle with
  | refl => exact h
  | step _ ih => exact isRooted_succ ih

theorem parent?_mem {ts : Indexed} {forest : List Chain}
    (h : ts.parent? forest head = some parent) : parent ∈ forest := by
  unfold parent? at h
  split at h
  · exact List.mem_of_find?_eq_some h
  · simp at h

/-- A way up goes through as many different chains as it needs steps. -/
theorem exists_way_up {ts : Indexed} {forest : List Chain} {n : Nat}
    (h : ts.isRooted forest n head = true) (hleast : ∀ m < n, ts.isRooted forest m head = false)
    (hhead : head ∈ forest.map (·.head)) :
    ∃ way : List String, way.Nodup ∧ way ⊆ forest.map (·.head) ∧ way.length = n + 1 ∧
      ∀ outer ∈ way, ts.isRooted forest n outer = true := by
  induction n generalizing head with
  | zero => exact ⟨[head], List.nodup_singleton _, by simpa using hhead, rfl, by simpa using h⟩
  | succ n ih =>
    cases hparent : ts.parent? forest head with
    | none =>
      have hzero := hleast 0 (Nat.succ_pos n)
      simp [isRooted_of_parent_eq_none hparent] at hzero
    | some parent =>
      have hstep := isRooted_of_parent hparent
      obtain ⟨way, hnodup, hsubset, hlength, hrooted⟩ := ih (hstep n ▸ h)
        (fun m hm => hstep m ▸ hleast (m + 1) (Nat.succ_lt_succ hm))
        (List.mem_map_of_mem (parent?_mem hparent))
      -- all that comes later is nearer to the end
      have hnot : head ∉ way := fun hmem => by
        have hnear := hleast n (Nat.lt_succ_self n)
        simp [hrooted head hmem] at hnear
      refine ⟨head :: way, List.nodup_cons.2 ⟨hnot, hnodup⟩,
        List.cons_subset.2 ⟨hhead, hsubset⟩, by rw [List.length_cons, hlength], ?_⟩
      exact List.forall_mem_cons.2 ⟨h, fun outer houter => isRooted_succ (hrooted outer houter)⟩

/-- A way up that ends goes through fewer chains than there are. -/
theorem isRooted_length {ts : Indexed} {forest : List Chain} {n : Nat}
    (h : ts.isRooted forest n head = true) (hhead : head ∈ forest.map (·.head)) :
    ts.isRooted forest forest.length head = true := by
  have hex : ∃ n, ts.isRooted forest n head = true := ⟨n, h⟩
  obtain ⟨way, hnodup, hsubset, hlength, -⟩ := exists_way_up (Nat.find_spec hex)
    (fun m hm => by simpa using Nat.find_min hex hm) hhead
  have hle := hnodup.length_le_of_subset hsubset
  rw [List.length_map, hlength] at hle
  exact isRooted_of_le (Nat.le_of_succ_le hle) (Nat.find_spec hex)

theorem isRooted_bound {ts : Indexed} {forest : List Chain} {bound : Nat}
    (hhead : head ∈ forest.map (·.head)) (hbound : forest.length ≤ bound) :
    ts.isRooted forest bound head = ts.isRooted forest forest.length head :=
  Bool.eq_iff_iff.2 ⟨fun h => isRooted_length h hhead, isRooted_of_le hbound⟩

theorem isRooted_iff (hchain : chain ∈ chains triples.zipIdx) :
    isRooted triples.zipIdx (chains triples.zipIdx) (chains triples.zipIdx).length chain.head =
      true ↔ IsGrounded triples chain.head := by
  have hentry : ∀ {chain}, chain ∈ chains triples.zipIdx → IsEntry triples chain.head :=
    fun hchain => isHead_iff_isEntry.1 (mem_chains_iff.1 hchain).isHead
  constructor
  · generalize (chains triples.zipIdx).length = n
    intro h
    induction n generalizing chain with
    | zero =>
      refine .intro _ fun outer hin => ?_
      obtain ⟨parent, hparent, -⟩ := (isIn_iff (hentry hchain)).1 hin
      simp [isRooted, hparent] at h
    | succ n ih =>
      refine .intro _ fun outer hin => ?_
      obtain ⟨parent, hparent, rfl⟩ := (isIn_iff (hentry hchain)).1 hin
      exact ih (parent?_mem hparent) (isRooted_of_parent hparent n ▸ h)
  · intro h
    obtain ⟨n, hn⟩ : ∃ n, isRooted triples.zipIdx (chains triples.zipIdx) n chain.head = true := by
      generalize hhead : chain.head = head at h
      induction h generalizing chain with
      | intro head _ ih =>
        subst hhead
        cases hparent : parent? triples.zipIdx (chains triples.zipIdx) chain.head with
        | none => exact ⟨0, isRooted_of_parent_eq_none hparent 0⟩
        | some parent =>
          have hin := (isIn_iff (hentry hchain)).2 ⟨parent, hparent, rfl⟩
          obtain ⟨n, hn⟩ := ih parent.head hin (parent?_mem hparent) rfl
          exact ⟨n + 1, isRooted_of_parent hparent n ▸ hn⟩
    exact isRooted_length hn (List.mem_map_of_mem hchain)

end Indexed

/-! ### Termination -/

/-- A row that nothing leads into comes to no element twice. -/
theorem nodup_of_isChain {α : Type} {r : α → α → Prop} (hunique : ∀ a b c, r a c → r b c → a = b)
    {root : α} (hroot : ∀ a, ¬ r a root) {row : List α} (h : (root :: row).IsChain r) :
    (root :: row).Nodup := by
  rw [List.isChain_iff_getElem] at h
  suffices hall : ∀ i j (hi : i < (root :: row).length) (hj : j < (root :: row).length),
      (root :: row)[i] = (root :: row)[j] → i = j from
    List.nodup_iff_injective_get.2 fun i j he => Fin.ext (hall i j i.2 j.2 he)
  intro i
  induction i with
  | zero =>
    intro j hi hj he
    cases j with
    | zero => rfl
    | succ j => exact absurd (he ▸ h j hj) (hroot _)
  | succ i ih =>
    intro j hi hj he
    cases j with
    | zero => exact absurd (he ▸ h i hi) (hroot _)
    | succ j =>
      have hsame := hunique _ _ _ (h i hi) (he ▸ h j hj)
      rw [ih j (Nat.lt_of_succ_lt hi) (Nat.lt_of_succ_lt hj) hsame]

/-- Each node of a row is the object of a triple. -/
theorem length_le_of_objects (hnodup : ids.Nodup)
    (hobjects : ∀ id ∈ ids, ∃ t, triplesTo triples id = [t]) : ids.length ≤ triples.length := by
  have hsubset : ids.map Term.blank ⊆ triples.map (·.object) := by
    intro term hterm
    obtain ⟨id, hid, rfl⟩ := List.mem_map.1 hterm
    obtain ⟨t, hto⟩ := hobjects id hid
    obtain ⟨ht, hobject⟩ := List.mem_filter.1 (hto ▸ List.mem_singleton_self t)
    exact List.mem_map.2 ⟨t, ht, of_decide_eq_true hobject⟩
  have hle := (hnodup.map fun a b => Term.blank.inj).length_le_of_subset hsubset
  rwa [List.length_map, List.length_map] at hle

theorem IsCell.mem_triplesTo (h : IsCell triples a item (.blank b)) :
    ⟨.blank a, .iri Vocabulary.rest, .blank b⟩ ∈ triplesTo triples b :=
  List.mem_filter.2 ⟨List.mem_of_mem_filter (h.mem_iff.2 (by simp)), decide_eq_true rfl⟩

/-- The walk from a head never comes to a node twice, and there are no more nodes to come to than
there are triples. -/
theorem walk_nodup (hhead : IsEntry triples head)
    (h : (head :: row).IsChain (Visits triples head)) :
    (head :: row).Nodup ∧ (head :: row).length ≤ triples.length := by
  obtain ⟨u, hto, hne⟩ := hhead
  have hroot : ∀ a, ¬ Visits triples head a head := by
    rintro a ⟨⟨item, hcell⟩, -⟩
    have hmem := hcell.mem_triplesTo
    rw [hto, List.mem_singleton] at hmem
    exact hne (hmem ▸ rfl)
  have hlater : ∀ {a b}, Visits triples head a b → IsContinuation triples b := by
    rintro a b ⟨hcell, rfl | hb⟩
    · exact (hroot a ⟨hcell, .inl rfl⟩).elim
    · exact hb
  have hunique : ∀ a b c, Visits triples head a c → Visits triples head b c → a = b := by
    intro a b c ha hb
    obtain ⟨v, hv, -⟩ := hlater ha
    obtain ⟨⟨_, ha⟩, -⟩ := ha
    obtain ⟨⟨_, hb⟩, -⟩ := hb
    have hsame := (List.mem_singleton.1 (hv ▸ ha.mem_triplesTo)).trans
      (List.mem_singleton.1 (hv ▸ hb.mem_triplesTo)).symm
    exact Term.blank.inj (congrArg Triple.subject hsame)
  have hnodup := nodup_of_isChain hunique hroot h
  refine ⟨hnodup, length_le_of_objects hnodup ?_⟩
  refine h.induction (fun id => ∃ t, triplesTo triples id = [t]) _ ?_ fun _ => ⟨u, hto⟩
  intro a b hvisits _
  obtain ⟨t, hto, -⟩ := hlater hvisits
  exact ⟨t, hto⟩

/-- A way up that comes to no head twice is not longer than the row of triples. -/
theorem way_up_length_le (hhead : IsList triples head ids items) (hnodup : (head :: row).Nodup)
    (h : (head :: row).IsChain (IsIn triples)) : (head :: row).length ≤ triples.length := by
  refine length_le_of_objects hnodup ?_
  refine h.induction (fun id => ∃ t, triplesTo triples id = [t]) _ ?_ fun _ => ?_
  · rintro inner outer ⟨_, _, hlist, -⟩ -
    obtain ⟨t, hto, -⟩ := hlist.entry
    exact ⟨t, hto⟩
  · obtain ⟨t, hto, -⟩ := hhead.entry
    exact ⟨t, hto⟩

/-! ### Collections -/

theorem mem_collections_iff : (∃ chain ∈ collections triples, chain.head = head ∧
    chain.ids = ids ∧ chain.items = items) ↔
      IsList triples head ids items ∧ IsGrounded triples head := by
  constructor
  · rintro ⟨chain, hchain, rfl, rfl, rfl⟩
    obtain ⟨hmem, hrooted⟩ := List.mem_filter.1 hchain
    exact ⟨Indexed.isList_iff.2 ⟨chain, hmem, rfl, rfl, rfl⟩, (Indexed.isRooted_iff hmem).1 hrooted⟩
  · intro ⟨hlist, hgrounded⟩
    obtain ⟨chain, hmem, rfl, hids, hitems⟩ := Indexed.isList_iff.1 hlist
    have hrooted := (Indexed.isRooted_iff hmem).2 hgrounded
    exact ⟨chain, List.mem_filter.2 ⟨hmem, hrooted⟩, rfl, hids, hitems⟩

/-- Collections are the lists that are referred to at their heads only and are not in a ring, each
once and with its items, and finding them comes to an end. -/
theorem collections_are_grounded_lists (triples : List Triple) :
    (∀ head ids items, (∃ chain ∈ collections triples, chain.head = head ∧ chain.ids = ids ∧
      chain.items = items) ↔ IsList triples head ids items ∧ IsGrounded triples head) ∧
    ((collections triples).map (·.head)).Nodup ∧ Ends triples := by
  refine ⟨fun head ids items => mem_collections_iff, ?_, ?_⟩
  · exact (Indexed.heads_nodup triples.zipIdx).sublist (List.filter_sublist.map _)
  · exact {
      walk head row := walk_nodup
      walk_bound bound t hbound := by
        have hlength : triples.zipIdx.length = triples.length := List.length_zipIdx
        rw [Indexed.walk_bound (hlength.trans_le hbound), hlength]
      up head ids items row := way_up_length_le
      up_bound chain hchain bound := Indexed.isRooted_bound (List.mem_map_of_mem hchain) }

/-- Two lists that are items of each other are no collections, and neither is a list that two
triples refer to. -/
example : collections [⟨.blank "a", .iri Vocabulary.first, .blank "b"⟩,
    ⟨.blank "a", .iri Vocabulary.rest, .iri Vocabulary.nil⟩,
    ⟨.blank "b", .iri Vocabulary.first, .blank "a"⟩,
    ⟨.blank "b", .iri Vocabulary.rest, .iri Vocabulary.nil⟩,
    ⟨.iri ⟨"urn:s"⟩, .iri ⟨"urn:p"⟩, .blank "c"⟩,
    ⟨.iri ⟨"urn:o"⟩, .iri ⟨"urn:p"⟩, .blank "c"⟩,
    ⟨.blank "c", .iri Vocabulary.first, .iri Vocabulary.nil⟩,
    ⟨.blank "c", .iri Vocabulary.rest, .iri Vocabulary.nil⟩] = [] := by decide

end Rdf.Turtle

import Rdf.Proofs.Turtle.Chains

/-!
The place of each collection in a document.

The chains that are compacted take all triples of their nodes out of the document, and each of
them is then an object or an item at one place only. As no way up from a chain is endless, the
chains form a forest whose roots are objects.
-/

namespace Rdf.Turtle

variable {triples : List Triple} {chains : List Chain} {chain parent : Chain} {t u : Triple}
  {id head : String}

def chainIds (chains : List Chain) : List String := chains.flatMap Chain.ids

/-- Whether a triple is about a node of one of the chains. -/
def isAbout (ids : List String) (t : Triple) : Bool := t.subject.blankId?.any ids.contains

theorem isAbout_iff {ids : List String} :
    isAbout ids t = true ↔ ∃ id ∈ ids, t.subject = .blank id := by
  simp only [isAbout, Option.any_eq_true, Term.blankId?_eq_some_iff, List.contains_iff_mem]
  exact exists_congr fun id => and_comm

theorem isAbout_nil (t : Triple) : isAbout [] t = false := by
  cases h : isAbout [] t with
  | false => rfl
  | true => simp [isAbout_iff] at h

/-- The objects that are written for some triples, and the items of their collections. -/
def places (triples : List Triple) (chains : List Chain) : List Term :=
  (visible triples chains).map (·.object) ++ chains.flatMap Chain.items

/-- Chains that can be written as collections, each at one place. -/
structure Forest (triples : List Triple) (chains : List Chain) : Prop where
  nodup : (chainIds chains).Nodup
  visible_eq : visible triples chains = triples.filter fun t => !isAbout (chainIds chains) t
  perm : triples.Perm (visible triples chains ++ chains.flatMap Chain.triples)
  length : ∀ chain ∈ chains, chain.items.length = chain.ids.length
  once : ∀ chain ∈ chains, (places triples chains).count (.blank chain.head) = 1
  heads : ∀ id ∈ chainIds chains, .blank id ∈ places triples chains →
    ∃ chain ∈ chains, chain.head = id
  level : ∃ level : String → Nat, ∀ parent ∈ chains, ∀ chain ∈ chains,
    .blank chain.head ∈ parent.items → level parent.head < level chain.head

theorem Forest.nil (triples : List Triple) : Forest triples [] := by
  have hvisible : visible triples [] = triples := by
    simp [visible, compacted]
  refine ⟨by simp [chainIds], ?_, ?_, by simp, by simp, by simp [chainIds], fun _ => 0, by simp⟩
  · simp [hvisible, chainIds, isAbout_nil]
  · simp [hvisible]

/-! ### Positions -/

namespace Indexed

theorem eq_of_mem_zipIdx {i : Nat} (ht : (t, i) ∈ triples.zipIdx) (hu : (u, i) ∈ triples.zipIdx) :
    t = u := by
  rw [List.mk_mem_zipIdx_iff_getElem?] at ht hu
  exact Option.some.inj (ht.symm.trans hu)

theorem map_filter_zipIdx (p : Triple → Bool) (triples : List Triple) :
    (triples.zipIdx.filter fun entry => p entry.1).map (·.1) = triples.filter p := by
  have hmap := @List.filter_map _ _ Prod.fst p triples.zipIdx
  rw [List.zipIdx_map_fst] at hmap
  exact hmap.symm

/-- A triple is compacted when it is about a node of a chain. -/
theorem mem_indices_iff (h : ∀ chain ∈ chains, IsChain triples.zipIdx chain) {i : Nat}
    (ht : (t, i) ∈ triples.zipIdx) :
    i ∈ chains.flatMap Chain.indices ↔ isAbout (chainIds chains) t = true := by
  rw [isAbout_iff]
  constructor
  · intro hi
    obtain ⟨chain, hchain, hi⟩ := List.mem_flatMap.1 hi
    obtain ⟨id, hid, u, hu⟩ := (h chain hchain).mem_indices.1 hi
    obtain ⟨humem, hsubject⟩ := List.mem_filter.1 hu
    obtain rfl := eq_of_mem_zipIdx ht humem
    exact ⟨id, List.mem_flatMap.2 ⟨chain, hchain, hid⟩, by simpa using hsubject⟩
  · intro ⟨id, hid, hsubject⟩
    obtain ⟨chain, hchain, hid⟩ := List.mem_flatMap.1 hid
    have hout : (t, i) ∈ Indexed.outgoing triples.zipIdx id :=
      List.mem_filter.2 ⟨ht, by simpa using hsubject⟩
    exact List.mem_flatMap.2 ⟨chain, hchain, (h chain hchain).mem_indices.2 ⟨id, hid, t, hout⟩⟩

theorem visible_eq_filter (h : ∀ chain ∈ chains, IsChain triples.zipIdx chain) :
    visible triples chains = triples.filter fun t => !isAbout (chainIds chains) t := by
  rw [visible, ← map_filter_zipIdx]
  congr 1
  refine List.filter_congr fun ⟨t, i⟩ ht => ?_
  have hlength : i < triples.length := by
    rw [List.mk_mem_zipIdx_iff_getElem?] at ht
    exact (List.getElem?_eq_some_iff.1 ht).1
  congr 1
  rw [Bool.eq_iff_iff, ← mem_indices_iff h ht]
  simp [compacted, hlength]

/-! ### Nodes -/

theorem chainIds_nodup (h : ∀ chain ∈ chains, IsChain triples.zipIdx chain)
    (hheads : (chains.map (·.head)).Nodup) : (chainIds chains).Nodup := by
  refine List.nodup_flatMap.2 ⟨fun chain hchain => (h chain hchain).links.nodup, ?_⟩
  refine (List.pairwise_map.1 hheads).imp_of_mem fun {a b} ha hb hne => ?_
  exact fun id hid hid' => hne ((h a ha).eq_of_mem_ids (h b hb) hid hid')

/-- Triples that are about different nodes stand in the order of the nodes. -/
theorem filter_isAbout_perm {ids : List String} (h : ids.Nodup) (triples : List Triple) :
    (triples.filter (isAbout ids)).Perm
      (ids.flatMap fun id => triples.filter fun t => t.subject = .blank id) := by
  induction ids with
  | nil => simp [isAbout_nil]
  | cons id ids ih =>
    obtain ⟨hid, hnodup⟩ := List.nodup_cons.1 h
    have hsplit := List.filter_append_perm (fun t : Triple => decide (t.subject = .blank id))
      (triples.filter (isAbout (id :: ids)))
    simp only [List.filter_filter] at hsplit
    have hfirst : (triples.filter fun t =>
        decide (t.subject = .blank id) && isAbout (id :: ids) t) =
        triples.filter fun t => decide (t.subject = .blank id) := by
      apply List.filter_congr
      intro t _
      by_cases ht : t.subject = .blank id <;> simp [ht, isAbout, Term.blankId?]
    have hrest : (triples.filter fun t =>
        !decide (t.subject = .blank id) && isAbout (id :: ids) t) =
        triples.filter (isAbout ids) := by
      apply List.filter_congr
      intro t _
      rw [Bool.eq_iff_iff]
      simp only [Bool.and_eq_true, isAbout_iff, Bool.not_eq_true', decide_eq_false_iff_not]
      constructor
      · intro habout
        obtain ⟨hne, other, hother, ht⟩ := habout
        obtain rfl | hmem := List.mem_cons.1 hother
        · exact (hne ht).elim
        · exact ⟨other, hmem, ht⟩
      · intro habout
        obtain ⟨other, hother, ht⟩ := habout
        refine ⟨fun he => hid ?_, other, List.mem_cons_of_mem id hother, ht⟩
        exact Term.blank.inj (he.symm.trans ht) ▸ hother
    rw [hfirst, hrest] at hsplit
    rw [List.flatMap_cons]
    exact hsplit.symm.trans ((ih hnodup).append_left _)

/-- The triples of a graph are the visible ones and those of its chains. -/
theorem triples_perm (h : ∀ chain ∈ chains, IsChain triples.zipIdx chain)
    (hheads : (chains.map (·.head)).Nodup) :
    triples.Perm (visible triples chains ++ chains.flatMap Chain.triples) := by
  have hnodes := filter_isAbout_perm (chainIds_nodup h hheads) triples
  have hchains : (chains.flatMap Chain.triples).Perm ((chainIds chains).flatMap fun id =>
      triples.filter fun t => t.subject = .blank id) := by
    rw [chainIds, List.flatMap_assoc]
    apply List.Perm.flatMap_left _
    intro chain hchain
    have hout : ∀ id, (outgoing triples.zipIdx id).map (·.1) =
        triples.filter fun t => t.subject = .blank id := fun id =>
      map_filter_zipIdx (fun t => t.subject = .blank id) triples
    have hlinks := (h chain hchain).links.triples_perm
    simp only [hout] at hlinks
    exact hlinks
  have hsplit := (List.filter_append_perm (isAbout (chainIds chains)) triples).symm
  rw [visible_eq_filter h]
  exact hsplit.trans (List.perm_append_comm.trans ((hnodes.trans hchains.symm).append_left _))

/-! ### References -/

theorem length_incoming (triples : List Triple) (id : String) :
    (incoming triples.zipIdx id).length = (triples.map (·.object)).count (.blank id) := by
  have hfilter := congrArg List.length (map_filter_zipIdx (fun t => t.object = .blank id) triples)
  rw [List.length_map] at hfilter
  rw [incoming, hfilter, List.count, List.countP_map, ← List.countP_eq_length_filter]
  apply List.countP_congr
  intro t _
  simp

/-- What refers to a node is at a place of the document or inside a chain. -/
theorem length_incoming_eq (h : ∀ chain ∈ chains, IsChain triples.zipIdx chain)
    (hheads : (chains.map (·.head)).Nodup) (id : String) :
    (incoming triples.zipIdx id).length = (places triples chains).count (.blank id) +
      (chains.flatMap Chain.nexts).count (.blank id) := by
  have hobjects : ((chains.flatMap Chain.triples).map (·.object)).Perm
      (chains.flatMap Chain.items ++ chains.flatMap Chain.nexts) := by
    rw [List.map_flatMap]
    refine (List.Perm.flatMap_left _ fun chain hchain => ?_).trans
      (List.flatMap_append_perm chains _ _).symm
    exact (h chain hchain).links.objects_perm
  have hall := (triples_perm h hheads).map (·.object)
  rw [List.map_append] at hall
  rw [length_incoming, (hall.trans (hobjects.append_left _)).count_eq, ← List.append_assoc,
    List.count_append, places]

theorem count_nexts_of_isHead (h : ∀ chain ∈ chains, IsChain triples.zipIdx chain)
    (hhead : isHead triples.zipIdx id = true) :
    (chains.flatMap Chain.nexts).count (.blank id) = 0 := by
  apply List.count_eq_zero.2
  intro hmem
  obtain ⟨chain, hchain, hnext⟩ := List.mem_flatMap.1 hmem
  have hrest := (h chain hchain).rests id hnext
  rw [isRest_of_isHead hhead] at hrest
  exact Bool.noConfusion hrest

theorem count_places_of_isHead (h : ∀ chain ∈ chains, IsChain triples.zipIdx chain)
    (hheads : (chains.map (·.head)).Nodup) (hhead : isHead triples.zipIdx id = true) :
    (places triples chains).count (.blank id) = 1 := by
  have hcount := length_incoming_eq h hheads id
  obtain ⟨entry, hin, -⟩ := isHead_iff.1 hhead
  rw [hin, count_nexts_of_isHead h hhead] at hcount
  exact hcount.symm

/-- A node of a chain that is at a place of the document is the head of its chain. -/
theorem isHead_of_mem_places (h : ∀ chain ∈ chains, IsChain triples.zipIdx chain)
    (hheads : (chains.map (·.head)).Nodup) (hid : id ∈ chainIds chains)
    (hplace : .blank id ∈ places triples chains) : ∃ chain ∈ chains, chain.head = id := by
  obtain ⟨chain, hchain, hid⟩ := List.mem_flatMap.1 hid
  rw [Chain.ids_eq] at hid
  obtain rfl | hnext := List.mem_cons.1 hid
  · exact ⟨chain, hchain, rfl⟩
  · obtain ⟨next, hnext, hblank⟩ := List.mem_filterMap.1 hnext
    obtain rfl := Term.blankId?_eq_some_iff.1 hblank
    obtain ⟨entry, hin, -⟩ := isRest_iff.1 ((h chain hchain).rests id hnext)
    have hcount := length_incoming_eq h hheads id
    have hplaces := List.count_pos_iff.2 hplace
    have hnexts := List.count_pos_iff.2 (List.mem_flatMap.2 ⟨chain, hchain, hnext⟩)
    rw [hin, List.length_singleton] at hcount
    omega

/-! ### Levels -/

/-- How often the way up from a head goes on, as far as the bound. -/
def level (ts : Indexed) (chains : List Chain) (bound : Nat) (head : String) : Nat :=
  (List.range (bound + 1)).countP fun n => !ts.isRooted chains n head

theorem level_lt {ts : Indexed} {bound : Nat} (hparent : ts.parent? chains head = some parent)
    (hrooted : ts.isRooted chains bound parent.head = true) :
    level ts chains bound parent.head < level ts chains bound head := by
  have hzero : ts.isRooted chains 0 head = false := by simp [isRooted, hparent]
  have hsucc : ∀ n, ts.isRooted chains (n + 1) head = ts.isRooted chains n parent.head := by
    intro n
    simp [isRooted, hparent]
  have hup : level ts chains bound head = (List.range bound).countP
      (fun n => !ts.isRooted chains n parent.head) + 1 := by
    simp [level, List.range_succ_eq_map, List.countP_map, hzero, hsucc,
      Function.comp_def]
  have hlast : level ts chains bound parent.head = (List.range bound).countP
      fun n => !ts.isRooted chains n parent.head := by
    simp [level, List.range_succ, List.countP_append, hrooted]
  omega

/-- What a head is an item of is its parent. -/
theorem parent?_eq (hparent : parent ∈ Indexed.chains triples.zipIdx)
    (hhead : isHead triples.zipIdx head = true) (hitem : .blank head ∈ parent.items) :
    parent? triples.zipIdx (Indexed.chains triples.zipIdx) head = some parent := by
  have hall : ∀ chain ∈ Indexed.chains triples.zipIdx, IsChain triples.zipIdx chain :=
    fun _ hmem => isChain_of_mem hmem
  obtain ⟨id, hid, i, hout⟩ := (hall parent hparent).mem_items hitem
  have hmem := List.mem_of_mem_filter hout
  obtain ⟨entry, hin, -⟩ := isHead_iff.1 hhead
  have hentry := mem_incoming.2 ⟨hmem, rfl⟩
  rw [hin, List.mem_singleton] at hentry
  have hindex := (hall parent hparent).mem_indices.2 ⟨id, hid, _, hout⟩
  cases hfind : (Indexed.chains triples.zipIdx).find? (·.indices.contains i) with
  | none =>
    have hno := List.find?_eq_none.1 hfind parent hparent
    simp [hindex] at hno
  | some other =>
    have hother := List.mem_of_find?_eq_some hfind
    have hindex' : i ∈ other.indices := by simpa using List.find?_some hfind
    obtain ⟨id', hid', u, hu⟩ := (hall other hother).mem_indices.1 hindex'
    obtain ⟨humem, hsubject⟩ := List.mem_filter.1 hu
    obtain rfl := eq_of_mem_zipIdx hmem humem
    obtain rfl : id = id' := by simpa using hsubject
    have heads := (hall parent hparent).eq_of_mem_ids (hall other hother) hid hid'
    have hsame := List.inj_on_of_nodup_map (heads_nodup triples.zipIdx) hparent hother heads
    simp [parent?, hin, ← hentry, ← hfind, hsame]

end Indexed

theorem Forest.of_collections (triples : List Triple) : Forest triples (collections triples) := by
  have hmem : ∀ chain ∈ collections triples, chain ∈ Indexed.chains triples.zipIdx :=
    fun _ h => List.mem_of_mem_filter h
  have hall : ∀ chain ∈ collections triples, Indexed.IsChain triples.zipIdx chain :=
    fun chain h => Indexed.isChain_of_mem (hmem chain h)
  have hheads : ((collections triples).map (·.head)).Nodup :=
    (Indexed.heads_nodup triples.zipIdx).sublist (List.filter_sublist.map _)
  refine ⟨Indexed.chainIds_nodup hall hheads, Indexed.visible_eq_filter hall,
    Indexed.triples_perm hall hheads, fun chain h => ?_, fun chain h => ?_, fun id hid hplace =>
    Indexed.isHead_of_mem_places hall hheads hid hplace, ?_⟩
  · have hlength := (hall chain h).links.forall₂.length_eq
    simp only [Chain.items, List.length_map, Chain.ids, hlength]
  · exact Indexed.count_places_of_isHead hall hheads (hall chain h).isHead
  · refine ⟨Indexed.level triples.zipIdx (Indexed.chains triples.zipIdx)
      (Indexed.chains triples.zipIdx).length, fun parent hparent chain hchain hitem => ?_⟩
    have hup := Indexed.parent?_eq (hmem parent hparent) (hall chain hchain).isHead hitem
    have hrooted := (List.mem_filter.1 hparent).2
    exact Indexed.level_lt hup hrooted

theorem Forest.of_options (options : Options) (triples : List Triple) :
    Forest triples (options.chains triples) := by
  by_cases h : options.lists = .collections
  · simpa [Options.chains, h] using of_collections triples
  · simpa [Options.chains, h] using nil triples

end Rdf.Turtle

import Rdf.Proofs.Turtle.Forest

/-!
Which collections are written in a term.

The printer goes down from a term to the chains that its collections stand for. Over all objects of
a document it comes to each chain of a forest exactly once, although it sets aside the chains that
it is in, and it goes as deep as chains are items of one another.
-/

namespace Rdf.Turtle

variable {triples : List Triple} {forest chains : List Chain} {chain parent : Chain} {t item : Term}
  {id : String}

/-- The chains that a term is written with, each behind those in its items. -/
def expand (chains : List Chain) : Term → List Chain
  | .blank id =>
    match _h : chains.find? (·.head = id) with
    | some chain =>
      (chain.items.flatMap fun item => expand (chains.eraseP (·.head = id)) item) ++ [chain]
    | none => []
  | _ => []
termination_by chains.length
decreasing_by exact length_eraseP_lt _h

/-- The labels that a term is written with. -/
def leaves (chains : List Chain) : Term → List String
  | .blank id =>
    match _h : chains.find? (·.head = id) with
    | some chain => chain.items.flatMap fun item => leaves (chains.eraseP (·.head = id)) item
    | none => [id]
  | _ => []
termination_by chains.length
decreasing_by exact length_eraseP_lt _h

/-- The greatest of some heights. -/
def deepest (heights : List Nat) : Nat := heights.foldr max 0

/-- How many collections a term is written with inside one another. -/
def height (chains : List Chain) : Term → Nat
  | .blank id =>
    match _h : chains.find? (·.head = id) with
    | some chain =>
      deepest (chain.items.map fun item => height (chains.eraseP (·.head = id)) item) + 1
    | none => 0
  | _ => 0
termination_by chains.length
decreasing_by exact length_eraseP_lt _h

@[simp]
theorem deepest_nil : deepest [] = 0 := rfl

@[simp]
theorem deepest_cons (first : Nat) (rest : List Nat) :
    deepest (first :: rest) = max first (deepest rest) := rfl

@[simp]
theorem deepest_append (first second : List Nat) :
    deepest (first ++ second) = max (deepest first) (deepest second) := by
  induction first with
  | nil => simp
  | cons height first ih => simp [ih, Nat.max_assoc]

theorem deepest_le_iff {heights : List Nat} {n : Nat} :
    deepest heights ≤ n ↔ ∀ height ∈ heights, height ≤ n := by
  induction heights with
  | nil => simp
  | cons height heights ih => simp [ih]

theorem find?_head (h : chains.find? (·.head = id) = some chain) :
    chain ∈ chains ∧ chain.head = id :=
  ⟨List.mem_of_find?_eq_some h, by simpa using List.find?_some h⟩

theorem mem_of_mem_expand (h : chain ∈ expand chains t) : chain ∈ chains := by
  fun_induction expand chains t with
  | case1 chains id parent hfind ih =>
    obtain hitem | hlast := List.mem_append.1 h
    · obtain ⟨item, -, hchain⟩ := List.mem_flatMap.1 hitem
      exact List.mem_of_mem_eraseP (ih item hchain)
    · obtain rfl := List.mem_singleton.1 hlast
      exact (find?_head hfind).1
  | case2 => simp at h
  | case3 => simp at h

/-! ### What is at hand -/

/-- No chain at the level of a term or below it has been set aside. -/
structure AtHand (forest : List Chain) (level : String → Nat) (chains : List Chain) (t : Term) :
    Prop where
  subset : chains ⊆ forest
  mem : ∀ chain ∈ forest, ∀ top ∈ forest, t = .blank top.head → level top.head ≤ level chain.head →
    chain ∈ chains

variable {level : String → Nat}

theorem AtHand.start (forest : List Chain) (level : String → Nat) (t : Term) :
    AtHand forest level forest t :=
  ⟨fun _ h => h, fun _ h _ _ _ _ => h⟩

/-- Going down to an item sets only its list aside. -/
theorem AtHand.down (h : AtHand forest level chains (.blank id))
    (hlevel : ∀ parent ∈ forest, ∀ chain ∈ forest, .blank chain.head ∈ parent.items →
      level parent.head < level chain.head)
    (hfind : chains.find? (·.head = id) = some parent) (hitem : item ∈ parent.items) :
    AtHand forest level (chains.eraseP (·.head = id)) item := by
  obtain ⟨hmem, rfl⟩ := find?_head hfind
  refine ⟨fun _ hc => h.subset (List.mem_of_mem_eraseP hc), fun chain hchain top htop he hle => ?_⟩
  have hlt := hlevel parent (h.subset hmem) top htop (he ▸ hitem)
  refine (List.mem_eraseP_of_neg ?_).2 (h.mem chain hchain parent (h.subset hmem) rfl (by omega))
  intro heads
  rw [of_decide_eq_true heads] at hle
  omega

namespace Forest

theorem heads_nodup (h : Forest triples forest) : (forest.map (·.head)).Nodup := by
  refine List.pairwise_map.2 ((List.nodup_flatMap.1 h.nodup).2.imp fun {a b} hdisjoint he => ?_)
  have hhead : ∀ chain : Chain, chain.head ∈ chain.ids := fun chain => by simp [Chain.ids_eq]
  exact hdisjoint (hhead a) (he ▸ hhead b)

theorem chains_nodup (h : Forest triples forest) : forest.Nodup := h.heads_nodup.of_map _

theorem eq_of_head (h : Forest triples forest) {other : Chain} (hchain : chain ∈ forest)
    (hother : other ∈ forest) (he : chain.head = other.head) : chain = other :=
  List.inj_on_of_nodup_map h.heads_nodup hchain hother he

theorem mem_places_of_item (hparent : parent ∈ forest) (hitem : item ∈ parent.items) :
    item ∈ places triples forest :=
  List.mem_append_right _ (List.mem_flatMap.2 ⟨parent, hparent, hitem⟩)

/-! ### Each chain once -/

theorem count_flatMap_expand {items : List Term} {f : Term → List Chain} (hcount : ∀ item ∈ items,
    (f item).count chain = (if item = .blank chain.head then 1 else 0) +
      ((f item).flatMap Chain.items).count (.blank chain.head)) :
    (items.flatMap f).count chain = items.count (.blank chain.head) +
      ((items.flatMap f).flatMap Chain.items).count (.blank chain.head) := by
  induction items with
  | nil => simp
  | cons item items ih =>
    have hitem := hcount item List.mem_cons_self
    have hrest := ih fun other hother => hcount other (List.mem_cons_of_mem item hother)
    simp only [List.flatMap_cons, List.flatMap_append, List.count_append, List.count_cons, hitem,
      hrest, beq_iff_eq]
    omega

/-- A chain is written where its head is the term or an item of what is written. -/
theorem count_expand (h : Forest triples forest)
    (hlevel : ∀ parent ∈ forest, ∀ chain ∈ forest, .blank chain.head ∈ parent.items →
      level parent.head < level chain.head)
    (hchain : chain ∈ forest) (hhand : AtHand forest level chains t) :
    (expand chains t).count chain = (if t = .blank chain.head then 1 else 0) +
      ((expand chains t).flatMap Chain.items).count (.blank chain.head) := by
  fun_induction expand chains t with
  | case1 chains id parent hfind ih =>
    obtain ⟨hmem, hhead⟩ := find?_head hfind
    have hitems := @count_flatMap_expand chain parent.items
      (fun item => expand (chains.eraseP (·.head = id)) item) fun item hitem =>
        ih item (hhand.down hlevel hfind hitem)
    have hlast : [parent].count chain = if Term.blank id = .blank chain.head then 1 else 0 := by
      by_cases he : parent.head = chain.head
      · have hsame := h.eq_of_head (hhand.subset hmem) hchain he
        simp [hsame, ← hhead]
      · have hne : parent ≠ chain := fun hsame => he (hsame ▸ rfl)
        simp [hne, ← hhead, he]
    simp only [List.count_append, List.flatMap_append, hitems, hlast, List.flatMap_cons,
      List.flatMap_nil, List.append_nil]
    omega
  | case2 chains id hfind =>
    have hne : id ≠ chain.head := by
      rintro rfl
      have hno := List.find?_eq_none.1 hfind chain
        (hhand.mem chain hchain chain hchain rfl (Nat.le_refl _))
      simp at hno
    simp [hne]
  | case3 chains t hblank =>
    have hne : t ≠ .blank chain.head := fun he => hblank _ he
    simp [hne]

theorem count_flatMap_filter {β : Type} [BEq β] {q : Chain → Bool} {f : Chain → List β} {y : β}
    {chains : List Chain} (h : ∀ chain ∈ chains, q chain = false → (f chain).count y = 0) :
    (chains.flatMap f).count y = ((chains.filter q).flatMap f).count y := by
  induction chains with
  | nil => rfl
  | cons chain chains ih =>
    have hrest := ih fun other hother => h other (List.mem_cons_of_mem chain hother)
    by_cases hq : q chain = true
    · simp [hq, hrest]
    · have hzero := h chain List.mem_cons_self (by simpa using hq)
      simp [hq, hrest, hzero]

/-- What comes once in one row, and nowhere else, comes as often as in a row without repetition. -/
theorem perm_filter_of_count {written forest : List Chain} {q : Chain → Bool}
    (hnodup : forest.Nodup) (hsub : written ⊆ forest)
    (hone : ∀ chain ∈ forest, q chain = true → written.count chain = 1) :
    (written.filter q).Perm (forest.filter q) := by
  apply List.perm_iff_count.2
  intro chain
  by_cases hmem : chain ∈ forest
  · by_cases hq : q chain = true
    · rw [List.count_filter hq, List.count_filter hq, hone chain hmem hq,
        List.count_eq_one_of_mem hnodup hmem]
    · have hno : ∀ chains : List Chain, chain ∉ chains.filter q := by simp [hq]
      rw [List.count_eq_zero.2 (hno _), List.count_eq_zero.2 (hno _)]
  · have hno : chain ∉ written.filter q := fun hw => hmem (hsub (List.mem_of_mem_filter hw))
    have hno' : chain ∉ forest.filter q := fun hw => hmem (List.mem_of_mem_filter hw)
    rw [List.count_eq_zero.2 hno, List.count_eq_zero.2 hno']

/-- The collections of a document are the chains, each of them written once. -/
theorem expand_perm (h : Forest triples forest) :
    (((visible triples forest).map (·.object)).flatMap (expand forest)).Perm forest := by
  obtain ⟨level, hlevel⟩ := h.level
  let roots := (visible triples forest).map (·.object)
  let written := roots.flatMap (expand forest)
  have hsub : written ⊆ forest := by
    intro chain hchain
    obtain ⟨t, -, hexpand⟩ := List.mem_flatMap.1 hchain
    exact mem_of_mem_expand hexpand
  have hcount : ∀ chain ∈ forest, written.count chain = 1 := by
    intro chain hchain
    induction hn : level chain.head using Nat.strongRecOn generalizing chain with
    | ind n ih =>
      -- only chains of lower levels can hold the head, and those are written once
      let lower (other : Chain) : Bool := level other.head < n
      have hlower : (written.filter lower).Perm (forest.filter lower) :=
        perm_filter_of_count h.chains_nodup hsub fun other hother hlt =>
          ih _ (of_decide_eq_true hlt) other hother rfl
      have hheld : ∀ other ∈ forest, lower other = false →
          other.items.count (.blank chain.head) = 0 := by
        intro other hother hnot
        apply List.count_eq_zero.2
        intro hitem
        have hlt := hlevel other hother chain hchain hitem
        simp [lower] at hnot
        omega
      have hwritten := count_flatMap_expand fun t (_ : t ∈ roots) =>
        h.count_expand hlevel hchain (.start forest level t)
      have hitems : (written.flatMap Chain.items).count (.blank chain.head) =
          (forest.flatMap Chain.items).count (.blank chain.head) := by
        rw [count_flatMap_filter fun other hother => hheld other (hsub hother),
          (hlower.flatMap_right Chain.items).count_eq, ← count_flatMap_filter hheld]
      have honce := h.once chain hchain
      rw [places, List.count_append, ← hitems] at honce
      exact hwritten.trans honce
  have hall := @perm_filter_of_count written forest (fun _ => true) h.chains_nodup hsub
    fun chain hchain _ => hcount chain hchain
  simpa only [List.filter_true] using hall

/-! ### Labels -/

/-- No node of a chain is written with a label. -/
theorem leaves_not_mem (h : Forest triples forest)
    (hlevel : ∀ parent ∈ forest, ∀ chain ∈ forest, .blank chain.head ∈ parent.items →
      level parent.head < level chain.head)
    (hplace : t ∈ places triples forest) (hhand : AtHand forest level chains t)
    (hid : id ∈ leaves chains t) : id ∉ chainIds forest := by
  fun_induction leaves chains t with
  | case1 chains top parent hfind ih =>
    obtain ⟨item, hitem, hid⟩ := List.mem_flatMap.1 hid
    have hparent := hhand.subset (find?_head hfind).1
    exact ih item (mem_places_of_item hparent hitem) (hhand.down hlevel hfind hitem) hid
  | case2 chains top hfind =>
    obtain rfl := List.mem_singleton.1 hid
    intro hmem
    obtain ⟨chain, hchain, rfl⟩ := h.heads _ hmem hplace
    have hno := List.find?_eq_none.1 hfind chain
      (hhand.mem chain hchain chain hchain rfl (Nat.le_refl _))
    simp at hno
  | case3 => simp at hid

end Forest

/-! ### Nests -/

/-- Lists, each an item of the one before it. -/
def IsNest (chains row : List Chain) : Prop :=
  row ⊆ chains ∧ row.IsChain fun outer inner => .blank inner.head ∈ outer.items

/-- What the items of a collection are nested in. -/
theorem IsNest.cons {chain : Chain} {id : String} {item : Term} {row : List Chain}
    (hfind : chains.find? (·.head = id) = some chain) (hitem : item ∈ chain.items)
    (h : IsNest (chains.eraseP (·.head = id)) row)
    (htop : ∀ top ∈ row.head?, item = .blank top.head) : IsNest chains (chain :: row) := by
  constructor
  · refine List.cons_subset.2 ⟨(find?_head hfind).1, fun other hother => ?_⟩
    exact List.mem_of_mem_eraseP (h.1 hother)
  · cases row with
    | nil => exact .singleton _
    | cons top row => exact .cons_cons (htop top rfl ▸ hitem) h.2

theorem deepest_eq_zero_or_mem (heights : List Nat) :
    deepest heights = 0 ∨ deepest heights ∈ heights := by
  induction heights with
  | nil => exact .inl rfl
  | cons first heights ih =>
    rw [deepest_cons, List.mem_cons]
    obtain hle | hlt := Nat.le_total (deepest heights) first
    · rw [Nat.max_eq_left hle]
      exact .inr (.inl rfl)
    · rw [Nat.max_eq_right hlt]
      exact ih.imp_right .inr

/-- A term is as high as some lists are nested from it on. -/
theorem exists_nest (chains : List Chain) (t : Term) :
    ∃ row, IsNest chains row ∧ (∀ top ∈ row.head?, t = .blank top.head) ∧
      row.length = height chains t := by
  fun_induction height chains t with
  | case1 chains id chain hfind ih =>
    obtain ⟨hmem, rfl⟩ := find?_head hfind
    obtain hflat | hdeep := deepest_eq_zero_or_mem
      (chain.items.map fun item => height (chains.eraseP (·.head = chain.head)) item)
    · exact ⟨[chain], ⟨by simpa using hmem, .singleton _⟩, by simp, by simp [hflat]⟩
    · obtain ⟨item, hitem, hheight⟩ := List.mem_map.1 hdeep
      obtain ⟨row, hrow, htop, hlength⟩ := ih item
      exact ⟨chain :: row, .cons hfind hitem hrow htop, by simp, by
        rw [List.length_cons, hlength, hheight]⟩
  | case2 | case3 => exact ⟨[], ⟨by simp, .nil⟩, by simp, rfl⟩

namespace Forest

/-- Lists that are nested from a term on are written in it. -/
theorem length_le_height (h : Forest triples forest)
    (hlevel : ∀ parent ∈ forest, ∀ chain ∈ forest, .blank chain.head ∈ parent.items →
      level parent.head < level chain.head)
    {row : List Chain} (hrow : IsNest forest row) (htop : ∀ top ∈ row.head?, t = .blank top.head)
    (hhand : AtHand forest level chains t) : row.length ≤ height chains t := by
  induction row generalizing chains t with
  | nil => exact Nat.zero_le _
  | cons top row ih =>
    obtain rfl : t = .blank top.head := htop top rfl
    obtain ⟨hsubset, hchain⟩ := hrow
    obtain ⟨htopMem, hrest⟩ := List.cons_subset.1 hsubset
    have hmem := hhand.mem top htopMem top htopMem rfl (Nat.le_refl _)
    cases hfind : chains.find? (·.head = top.head) with
    | none => exact absurd (List.find?_eq_none.1 hfind top hmem) (by simp)
    | some parent =>
      obtain ⟨hparent, hsame⟩ := find?_head hfind
      obtain rfl := h.eq_of_head (hhand.subset hparent) htopMem hsame
      have hheight : height chains (.blank parent.head) = deepest (parent.items.map
          (height (chains.eraseP (·.head = parent.head)))) + 1 := by
        rw [height]
        split <;> simp_all
      rw [hheight, List.length_cons]
      apply Nat.succ_le_succ
      cases row with
      | nil => exact Nat.zero_le _
      | cons next row =>
        obtain ⟨hitem, hnext⟩ := List.isChain_cons_cons.1 hchain
        refine Nat.le_trans (ih ⟨hrest, hnext⟩ (by simp) (hhand.down hlevel hfind hitem)) ?_
        exact deepest_le_iff.1 (Nat.le_refl _) _ (List.mem_map_of_mem hitem)

/-- Lists are nested as deep as the highest object is written. -/
theorem heights_le_iff (h : Forest triples forest) (n : Nat) :
    (∀ t ∈ visible triples forest, height forest t.object ≤ n) ↔
      ∀ row, IsNest forest row → row.length ≤ n := by
  constructor
  · intro hheights row hrow
    obtain ⟨level, hlevel⟩ := h.level
    cases row with
    | nil => exact Nat.zero_le n
    | cons top row =>
      -- going up from the outermost list leads to an object that is visible
      induction hn : level top.head using Nat.strongRecOn generalizing top row with
      | ind k ih =>
        have htop := hrow.1 List.mem_cons_self
        have hplace : Term.blank top.head ∈ places triples forest :=
          List.count_pos_iff.1 (by rw [h.once top htop]; exact Nat.one_pos)
        obtain hobject | hinner := List.mem_append.1 hplace
        · obtain ⟨t, ht, hobject⟩ := List.mem_map.1 hobject
          exact Nat.le_trans (h.length_le_height hlevel hrow (by simpa using hobject)
            (.start forest level t.object)) (hheights t ht)
        · obtain ⟨parent, hparent, hitem⟩ := List.mem_flatMap.1 hinner
          have hlonger := ih _ (hn ▸ hlevel parent hparent top htop hitem) parent (top :: row)
            ⟨List.cons_subset.2 ⟨hparent, hrow.1⟩, .cons_cons hitem hrow.2⟩ rfl
          exact Nat.le_trans (Nat.le_succ _) hlonger
  · intro hrows t ht
    obtain ⟨row, hrow, -, hlength⟩ := exists_nest forest t.object
    rw [← hlength]
    exact hrows row hrow

end Forest

end Rdf.Turtle

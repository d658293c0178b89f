import HashMapStorage.NodeList

/-!
# What the list operations do to a chain

A list `Holds` its chain when `size` counts it and, from two nodes on, `tail`
is its last node. Nothing is said of `tail` on a shorter list: the operations
leave it behind there, NULL or pointing to a node released long ago. Each
operation is described by what it makes of the chain and by the nodes it does
not touch.
-/

namespace HashMapStorage

open Machine

def nodeShape : NodeShape NodeT EntryT := ⟨NodeT.entrada, NodeT.proximo⟩

@[simp] theorem nodeShape_item (node : NodeT) : nodeShape.item node = node.entrada := rfl

@[simp] theorem nodeShape_next (node : NodeT) : nodeShape.next node = node.proximo := rfl

abbrev Nodes := List (Nat × EntryT)

structure ListT.Holds (h : Heap NodeT) (list : ListT) (xs : Nodes) : Prop where
  chain : Linked nodeShape h list.head xs none
  size : list.size = xs.length
  fits : IsInt list.size
  tail : 2 ≤ xs.length → list.tail = (addrs xs).getLast?

def findEntry (key : CStr) (xs : Nodes) : Option EntryT :=
  (xs.find? fun x => x.2.key = key).map Prod.snd

@[simp] theorem findEntry_nil (key : CStr) : findEntry key [] = none := rfl

@[simp] theorem findEntry_cons (key : CStr) (x : Nat × EntryT) (xs : Nodes) :
    findEntry key (x :: xs) = if x.2.key = key then some x.2 else findEntry key xs := by
  unfold findEntry
  by_cases hk : x.2.key = key <;> simp [hk]

theorem findEntry_append (key : CStr) (xs ys : Nodes) :
    findEntry key (xs ++ ys) = (findEntry key xs).or (findEntry key ys) := by
  induction xs with
  | nil => simp
  | cons x xs ih => by_cases hk : x.2.key = key <;> simp [hk, ih]

theorem findEntry_eq_none : findEntry key xs = none ↔ ∀ x ∈ xs, x.2.key ≠ key := by
  simp [findEntry]

theorem findEntry_split (hf : findEntry key xs = some e) :
    ∃ ys a zs, xs = ys ++ (a, e) :: zs ∧ e.key = key ∧ ∀ y ∈ ys, y.2.key ≠ key := by
  induction xs with
  | nil => simp at hf
  | cons x xs ih =>
    by_cases hk : x.2.key = key
    · simp only [findEntry_cons, hk, ↓reduceIte, Option.some.injEq] at hf
      subst hf
      exact ⟨[], x.1, xs, rfl, hk, by simp⟩
    · simp only [findEntry_cons, hk, ↓reduceIte] at hf
      obtain ⟨ys, a, zs, rfl, he, hy⟩ := ih hf
      refine ⟨x :: ys, a, zs, rfl, he, ?_⟩
      intro y hm
      rcases List.mem_cons.mp hm with rfl | hm
      · exact hk
      · exact hy y hm

-- ---------------------------------------------------------------------------
-- list_get
-- ---------------------------------------------------------------------------

theorem listGetLoop_linked (hl : Linked nodeShape h p xs none) (hf : xs.length < fuel) :
    listGetLoop h key fuel p = .ok (findEntry key xs) := by
  induction xs generalizing p fuel with
  | nil =>
    cases hl
    cases fuel with
    | zero => simp at hf
    | succ fuel => rfl
  | cons x xs ih =>
    obtain ⟨rfl, v, hc, hi, hl⟩ := hl
    cases fuel with
    | zero => simp at hf
    | succ fuel =>
      have hi : v.entrada = x.2 := hi
      simp only [listGetLoop, Heap.load_some hc, ok_bind, hi, findEntry_cons, eq_comm (a := key)]
      split
      · rfl
      · exact ih hl (by simpa using hf)

theorem listGet_holds (hl : ListT.Holds h list xs) (key : CStr) :
    listGet h list (some key) = .ok (findEntry key xs) :=
  listGetLoop_linked hl.chain (Nat.lt_succ_of_le hl.chain.length_le_top)

-- ---------------------------------------------------------------------------
-- list_remove
-- ---------------------------------------------------------------------------

theorem setProximo_some (hc : h.cell a = some node) :
    setProximo h (some a) p = .ok (h.set a (some { node with proximo := p })) := by
  simp [setProximo, Heap.load_some hc, Heap.store_some hc]

theorem listUnlink_some (hb : h.cell b = some node) (hn : node.proximo = some a)
    (ha : h.cell a = some del) (hne : a ≠ b) (hs : IsInt (list.size - 1)) :
    listUnlink h list (some b) =
      .ok ((h.set b (some { node with proximo := del.proximo })).set a none,
        { list with size := list.size - 1 }) := by
  have ha' : (h.set b (some { node with proximo := del.proximo })).cell a = some del := by
    rw [Heap.set_cell_ne _ _ hne, ha]
  simp [listUnlink, Heap.load_some hb, hn, Heap.load_some ha, setProximo_some hb,
    Heap.free_some ha', checkInt_of_isInt hs]

theorem linked_next (hl : Linked nodeShape h p (xs ++ (b, f) :: x :: rest) none) :
    ∃ node next, h.cell b = some node ∧ node.entrada = f ∧ node.proximo = some x.1 ∧
      h.cell x.1 = some next ∧ next.entrada = x.2 := by
  obtain ⟨r, -, -, node, hb, hi, hn, next, hx, hd, -⟩ := hl.append
  exact ⟨node, next, hb, hi, hn, hx, hd⟩

theorem listUnlink_linked (hl : Linked nodeShape h p (xs ++ (b, f) :: (a, e) :: zs) none)
    (hs : IsInt (list.size - 1)) :
    ∃ h', listUnlink h list (some b) = .ok (h', { list with size := list.size - 1 }) ∧
      Linked nodeShape h' p (xs ++ (b, f) :: zs) none ∧
      ∀ c ∉ addrs (xs ++ (b, f) :: (a, e) :: zs), h'.cell c = h.cell c := by
  obtain ⟨node, del, hb, hi, hn, ha, -⟩ := linked_next hl
  have hnd := hl.nodup
  have hne : a ≠ b := by
    rintro rfl
    simp [List.nodup_append] at hnd
  let h' := (h.set b (some { node with proximo := del.proximo })).set a none
  have hcell : ∀ c, c ≠ a → c ≠ b → h'.cell c = h.cell c := fun c hca hcb => by
    rw [Heap.set_cell_ne _ _ hca, Heap.set_cell_ne _ _ hcb]
  have hother : ∀ c ∈ addrs (xs ++ zs), c ≠ a ∧ c ≠ b := by
    simp only [addrs_append, addrs_cons, List.nodup_append, List.nodup_cons, List.mem_append,
      List.mem_cons] at hnd ⊢
    grind
  refine ⟨h', listUnlink_some hb hn ha hne hs, ?_, fun c hc => ?_⟩
  · refine hl.skip (v := { node with proximo := del.proximo }) ha hi rfl ?_ ?_
    · rw [Heap.set_cell_ne _ _ (Ne.symm hne), Heap.set_cell]
    · exact fun c hc => hcell c (hother c hc).1 (hother c hc).2
  · simp only [addrs_append, addrs_cons, List.mem_append, List.mem_cons, not_or] at hc
    exact hcell c hc.2.2.1 hc.2.1

section
variable {h : Heap NodeT} {list : ListT} {key : CStr} {b : Nat} {f : EntryT} {x : Nat × EntryT}
  {rest : Nodes}

theorem next_ne_tail (hl : Linked nodeShape h p (xs ++ (b, f) :: x :: rest) none)
    (ht : list.tail = (addrs (xs ++ (b, f) :: x :: rest)).getLast?) (hr : rest ≠ []) :
    some x.1 ≠ list.tail := by
  have hl' : Linked nodeShape h p ((xs ++ [(b, f)]) ++ x :: rest) none := by simpa using hl
  rw [ht]
  simpa using (hl'.ne_last hr).symm

theorem listRemoveLoop_next (hl : Linked nodeShape h p (xs ++ (b, f) :: x :: rest) none)
    (ht : list.tail = (addrs (xs ++ (b, f) :: x :: rest)).getLast?) (hr : rest ≠ [])
    (hx : x.2.key ≠ key) (fuel : Nat) :
    listRemoveLoop h list key (fuel + 1) (some b) = listRemoveLoop h list key fuel (some x.1) := by
  obtain ⟨node, next, hb, -, hn, hc, hd⟩ := linked_next hl
  simp [listRemoveLoop, Heap.load_some hb, hn, Heap.load_some hc, hd, next_ne_tail hl ht hr, hx]

end

theorem listRemoveLoop_linked
    (hl : Linked nodeShape h p (xs ++ (b, f) :: (mid ++ (a, e) :: zs)) none)
    (ht : list.tail = (addrs (xs ++ (b, f) :: (mid ++ (a, e) :: zs))).getLast?)
    (hs : IsInt (list.size - 1)) (he : e.key = key) (hm : ∀ x ∈ mid, x.2.key ≠ key)
    (hf : mid.length < fuel) :
    ∃ h' tail, listRemoveLoop h list key fuel (some b) =
        .ok (0, h', { list with tail, size := list.size - 1 }) ∧
      Linked nodeShape h' p (xs ++ (b, f) :: (mid ++ zs)) none ∧
      tail = (addrs (xs ++ (b, f) :: (mid ++ zs))).getLast? ∧
      ∀ c ∉ addrs (xs ++ (b, f) :: (mid ++ (a, e) :: zs)), h'.cell c = h.cell c := by
  induction mid generalizing xs b f fuel with
  | nil =>
    -- the key is right behind `b`
    obtain ⟨fuel, rfl⟩ := Nat.exists_eq_add_one_of_ne_zero (Nat.ne_zero_of_lt hf)
    obtain ⟨node, del, hb, -, hn, ha, hd⟩ := linked_next hl
    obtain ⟨h', hunlink, hchain, hframe⟩ := listUnlink_linked hl hs
    cases zs with
    | nil =>
      have htail : list.tail = some a := by simp [ht, addrs]
      refine ⟨h', some b, ?_, hchain, by simp [addrs], hframe⟩
      simp [listRemoveLoop, Heap.load_some hb, hn, Heap.load_some ha, hd, he, htail, hunlink]
    | cons z zs =>
      have hlast : (addrs (xs ++ (b, f) :: z :: zs)).getLast? = list.tail := by
        simp [ht, addrs, List.getLast?_cons, List.getLast?_append]
      have htail : some a ≠ list.tail := next_ne_tail hl ht (by simp)
      refine ⟨h', list.tail, ?_, hchain, hlast.symm, hframe⟩
      simp [listRemoveLoop, Heap.load_some hb, hn, Heap.load_some ha, hd, he, htail, hunlink]
  | cons x mid ih =>
    obtain ⟨fuel, rfl⟩ := Nat.exists_eq_add_one_of_ne_zero (Nat.ne_zero_of_lt hf)
    have hnext := listRemoveLoop_next hl ht (by simp) (hm x (by simp)) fuel
    have hl' : Linked nodeShape h p ((xs ++ [(b, f)]) ++ x :: (mid ++ (a, e) :: zs)) none := by
      simpa using hl
    obtain ⟨h', tail, hrun, hchain, hlast, hframe⟩ := ih hl' (by simpa using ht)
      (fun y hy => hm y (List.mem_cons_of_mem _ hy)) (by simpa using hf)
    exact ⟨h', tail, hnext.trans hrun, by simpa using hchain, by simpa using hlast,
      by simpa using hframe⟩

/-- Removing a key unlinks its node and touches no node of another chain.
Only a removal behind the head sets `tail`. -/
theorem listRemove_holds (hl : ListT.Holds h list (ys ++ (a, e) :: zs)) (he : e.key = key)
    (hy : ∀ y ∈ ys, y.2.key ≠ key) :
    ∃ h' list', listRemove h list (some key) = .ok (0, h', list') ∧
      ListT.Holds h' list' (ys ++ zs) ∧
      list'.tail = (if ys = [] then list.tail else (addrs (ys ++ zs)).getLast?) ∧
      ∀ c ∉ addrs (ys ++ (a, e) :: zs), h'.cell c = h.cell c := by
  obtain ⟨hchain, hsize, hfits, htail⟩ := hl
  simp only [List.length_append, List.length_cons] at hsize
  have hs : IsInt (list.size - 1) := by
    obtain ⟨lo, hi⟩ := hfits
    constructor <;> simp only [intMin, intMax] at * <;> omega
  have hcount : list.size - 1 = ((ys ++ zs).length : Nat) := by
    rw [hsize, List.length_append]
    omega
  cases ys with
  | nil =>
    obtain ⟨hp, v, hc, hi, hz⟩ := hchain
    have hi : v.entrada = e := hi
    have hfull : Linked nodeShape h list.head ((a, e) :: zs) none := ⟨hp, v, hc, hi, hz⟩
    have hnd := hfull.nodup
    have hna : a ∉ addrs zs := (List.nodup_cons.mp hnd).1
    refine ⟨h.set a none, { list with head := v.proximo, size := list.size - 1 }, ?_,
      ⟨hz.set_frame hna none, hcount, hs, ?_⟩, rfl, ?_⟩
    · simp [listRemove, hp, Heap.load_some hc, hi, he, Heap.free_some hc, checkInt_of_isInt hs]
    · intro hlen
      have hlong : 2 ≤ (([] : Nodes) ++ (a, e) :: zs).length := by simp at hlen ⊢; omega
      cases zs with
      | nil => simp at hlen
      | cons z zs => simpa [List.getLast?_cons] using htail hlong
    · intro c hc
      exact h.set_cell_ne none fun e => hc (by simp [e])
  | cons y ys =>
    have hlong : 2 ≤ (y :: ys ++ (a, e) :: zs).length := by simp; omega
    have hfuel : ys.length < h.top + 1 := by
      have := hchain.length_le_top
      simp at this
      omega
    have hsplit : Linked nodeShape h list.head ([] ++ (y.1, y.2) :: (ys ++ (a, e) :: zs)) none :=
      hchain
    obtain ⟨h', tail, hrun, hchain', hlast, hframe⟩ :=
      listRemoveLoop_linked hsplit (htail hlong) hs he
        (fun x hx => hy x (List.mem_cons_of_mem _ hx)) hfuel
    obtain ⟨hp, v, hc, hi, -⟩ := hchain
    have hi : v.entrada = y.2 := hi
    refine ⟨h', { list with tail, size := list.size - 1 }, ?_,
      ⟨hchain', hcount, hs, fun _ => hlast⟩, hlast, hframe⟩
    simp [listRemove, hp, Heap.load_some hc, hi, hy y (by simp), hrun]

theorem removed_tail (hl : ListT.Holds h list (ys ++ (a, e) :: zs))
    (hl' : ListT.Holds h' list' (ys ++ zs))
    (ht : list'.tail = if ys = [] then list.tail else (addrs (ys ++ zs)).getLast?) :
    staleTail nodeShape h' list'.head list'.tail = false := by
  rw [hl'.chain.staleTail_eq_false]
  cases ys with
  | cons y ys => exact .inr (.inr (by simpa using ht))
  | nil =>
    cases zs with
    | nil => exact .inl rfl
    | cons z zs =>
      refine .inr (.inr ?_)
      rw [ht, hl.tail (by simp)]
      simp [List.getLast?_cons]

-- ---------------------------------------------------------------------------
-- list_add
-- ---------------------------------------------------------------------------

theorem setProximo_linked (hl : Linked nodeShape h p (xs ++ [(a, b)]) none)
    (hnew : new ∉ addrs (xs ++ [(a, b)])) (hnode : h₁.cell new = some ⟨entry, none⟩)
    (hold : ∀ c, c ≠ new → h₁.cell c = h.cell c) :
    ∃ h₂, setProximo h₁ (some a) (some new) = .ok h₂ ∧
      Linked nodeShape h₂ p (xs ++ [(a, b)] ++ [(new, entry)]) none ∧
      ∀ c ∉ addrs (xs ++ [(a, b)]), c ≠ new → h₂.cell c = h.cell c := by
  obtain ⟨v, hv, hi, hn⟩ := hl.next_last
  have hne : a ≠ new := fun e => hnew (by simp [← e])
  have hv₁ : h₁.cell a = some v := by rw [hold a hne, hv]
  refine ⟨h₁.set a (some { v with proximo := some new }), setProximo_some hv₁, ?_, ?_⟩
  · rw [List.append_assoc]
    refine hl.extend (v := { v with proximo := some new }) (w := ⟨entry, none⟩) hi rfl ?_ rfl
      (Heap.set_cell ..) ?_
    · rw [Heap.set_cell_ne _ _ (Ne.symm hne), hnode]
    · intro c hc
      have hca : c ≠ a := by
        rintro rfl
        have hnd := hl.nodup
        simp only [addrs_append, List.nodup_append] at hnd
        exact hnd.2.2 c hc c (by simp) rfl
      have hcm : c ≠ new := fun e => hnew (by simp [← e, hc])
      rw [Heap.set_cell_ne _ _ hca, hold c hcm]
  · intro c hc hcm
    have hca : c ≠ a := fun e => hc (by simp [e])
    rw [Heap.set_cell_ne _ _ hca, hold c hcm]

/-- Where the tail pointer is not stale, a new key's node is linked behind the
chain before `size` is counted up. -/
theorem listAdd_links (entry : EntryT) (hl : ListT.Holds h list xs)
    (hk : findEntry entry.key xs = none)
    (ht : staleTail nodeShape h list.head list.tail = false) (m : Malloc NodeT) :
    ∃ h' head, listAdd h list entry m = (do
        let size ← checkInt (list.size + 1)
        pure (0, h', ⟨head, if xs = [] then list.tail else some (m.addr h), size⟩)) ∧
      Linked nodeShape h' head (xs ++ [(m.addr h, entry)]) none ∧
      ∀ c ∉ addrs xs, c ≠ m.addr h → h'.cell c = h.cell c := by
  have hsound := hl.chain.staleTail_eq_false.mp ht
  have hget := listGet_holds hl entry.key
  rw [hk] at hget
  obtain ⟨hchain, -, -, htail⟩ := hl
  have hnew : m.addr h ∉ addrs xs := hchain.not_mem_of_free (m.fresh h)
  let h₁ := (h.set (m.addr h) (some (m.junk h))).set (m.addr h) (some ⟨entry, none⟩)
  have hstore : (h.set (m.addr h) (some (m.junk h))).store (some (m.addr h)) ⟨entry, none⟩ =
      .ok h₁ :=
    Heap.store_some (Heap.set_cell ..)
  have hnode : h₁.cell (m.addr h) = some ⟨entry, none⟩ := Heap.set_cell ..
  have hold : ∀ c, c ≠ m.addr h → h₁.cell c = h.cell c := fun c hc => by
    rw [Heap.set_cell_ne _ _ hc, Heap.set_cell_ne _ _ hc]
  rcases List.eq_nil_or_concat xs with rfl | ⟨xs, ⟨a, b⟩, rfl⟩
  · have hhead : list.head = none := hchain
    refine ⟨h₁, some (m.addr h), ?_, ⟨rfl, _, hnode, rfl, rfl⟩, fun c _ hc => hold c hc⟩
    simp [listAdd, hget, Heap.alloc, hstore, hhead]
  · rw [List.concat_eq_append] at *
    obtain ⟨h₂, hlink, hchain', hframe⟩ := setProximo_linked hchain hnew hnode hold
    refine ⟨h₂, list.head, ?_, hchain', hframe⟩
    -- the node to link behind is the one `list->tail`, or else `list->head`, points to
    rcases hsound.resolve_left (by simp) with htn | hta
    · have hone : xs = [] := by
        by_contra hx
        have hlong : 2 ≤ (xs ++ [(a, b)]).length := by
          have := List.length_pos_iff.mpr hx
          simp
          omega
        simpa [htn, addrs] using htail hlong
      subst hone
      have hhead : list.head = some a := hchain.1
      simp [listAdd, hget, Heap.alloc, hstore, hhead, htn, hlink]
    · have hta : list.tail = some a := by simp [hta, addrs]
      obtain ⟨hd, hhead⟩ : ∃ hd, list.head = some hd := by
        cases xs with
        | nil => exact ⟨_, hchain.1⟩
        | cons x xs => exact ⟨_, hchain.1⟩
      simp [listAdd, hget, Heap.alloc, hstore, hhead, hta, hlink]

theorem listAdd_holds (entry : EntryT) (hl : ListT.Holds h list xs)
    (hk : findEntry entry.key xs = none) (hs : IsInt (list.size + 1))
    (ht : staleTail nodeShape h list.head list.tail = false) (m : Malloc NodeT) :
    ∃ h' list', listAdd h list entry m = .ok (0, h', list') ∧
      ListT.Holds h' list' (xs ++ [(m.addr h, entry)]) ∧
      ∀ c ∉ addrs xs, c ≠ m.addr h → h'.cell c = h.cell c := by
  obtain ⟨h', head, hadd, hchain, hframe⟩ := listAdd_links entry hl hk ht m
  rw [checkInt_of_isInt hs, ok_bind] at hadd
  refine ⟨h', _, hadd, ⟨hchain, ?_, hs, fun hlong => ?_⟩, hframe⟩
  · simp [hl.size]
  · have hne : xs ≠ [] := by
      rintro rfl
      simp at hlong
    simp [hne, addrs]

theorem listReplace_holds (entry : EntryT) (hl : ListT.Holds h list (ys ++ (a, e) :: zs))
    (he : e.key = entry.key) (hy : ∀ y ∈ ys, y.2.key ≠ entry.key)
    (hk : findEntry entry.key (ys ++ zs) = none) (m : Malloc NodeT) :
    ∃ h₁ list₁ h₂ list₂, listRemove h list (some entry.key) = .ok (0, h₁, list₁) ∧
      listAdd h₁ list₁ entry m = .ok (0, h₂, list₂) ∧
      ListT.Holds h₂ list₂ (ys ++ zs ++ [(m.addr h₁, entry)]) ∧ list₂.size = list.size ∧
      ∀ c v, c ∉ addrs (ys ++ (a, e) :: zs) → h.cell c = some v → h₂.cell c = some v := by
  obtain ⟨h₁, list₁, hremove, hl₁, htail, hframe₁⟩ := listRemove_holds hl he hy
  have hlen : (ys ++ (a, e) :: zs).length = (ys ++ zs).length + 1 := by simp; omega
  have hone : list₁.size + 1 = list.size := by
    rw [hl₁.size, hl.size, hlen]
    omega
  obtain ⟨h₂, list₂, hadd, hl₂, hframe₂⟩ :=
    listAdd_holds entry hl₁ hk (hone ▸ hl.fits) (removed_tail hl hl₁ htail) m
  refine ⟨h₁, list₁, h₂, list₂, hremove, hadd, hl₂, ?_, ?_⟩
  · rw [hl₂.size, hl.size]
    simp
  · intro c v hc hv
    have hv₁ : h₁.cell c = some v := by rw [hframe₁ c hc, hv]
    have hc₁ : c ∉ addrs (ys ++ zs) := by
      simp only [addrs_append, addrs_cons, List.mem_append, List.mem_cons, not_or] at hc ⊢
      exact ⟨hc.1, hc.2.2⟩
    rw [hframe₂ c hc₁ (Heap.ne_of_free hv₁ (m.fresh h₁)), hv₁]

end HashMapStorage

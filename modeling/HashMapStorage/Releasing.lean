import HashMapStorage.TableObjectLaws

/-!
# Making and releasing a table

`table_create` makes the blocks of an empty table. `table_destroy` releases
every block that belongs to the table, and releases it once, as long as the
chains of the lists share no node and pass all of them.
-/

namespace HashMapStorage

open Machine

namespace Objects

variable {h h' : Heap Obj} {rest : Cells Obj} {view : Heap NodeT}

-- ---------------------------------------------------------------------------
-- table_create
-- ---------------------------------------------------------------------------

theorem createLists_makes {ls : List Nat} {lists : List ListT} (m : ObjMem)
    (hlen : ls.length = lists.length)
    (hl : Ledger h ((arr, .lists (ls.map some ++ List.replicate left none)) ::ₘ
      (listCells ls lists + rest))) :
    ∃ h' ls', createLists (some arr) m left ls.length h = .ok h' ∧ h.top ≤ h'.top ∧
      ls'.length = ls.length + left ∧
      Ledger h' ((arr, .lists (ls'.map some)) ::ₘ
        (listCells ls' (lists ++ List.replicate left HashMapStorage.listCreate) + rest)) := by
  induction left generalizing h ls lists with
  | zero => exact ⟨h, ls, rfl, Nat.le_refl _, rfl, by simpa using hl⟩
  | succ left ih =>
    obtain ⟨hl₁, htop₁⟩ := hl.place m.malloc (.list ⟨none, none, 0⟩)
    generalize hp : h.place m.malloc (.list ⟨none, none, 0⟩) = placed at hl₁ htop₁
    obtain ⟨list, h₁⟩ := placed
    rw [Multiset.cons_swap] at hl₁
    have hload : load Obj.asLists h₁ (some arr) =
        .ok (ls.map some ++ List.replicate (left + 1) none) :=
      load_mem hl₁ (Multiset.mem_cons_self ..) rfl
    have hset : (ls.map some ++ List.replicate (left + 1) (none : Ptr)).set ls.length (some list) =
        (ls ++ [list]).map some ++ List.replicate left none := by
      simp [List.replicate_succ]
    obtain ⟨h₂, hstore, hl₂, htop₂⟩ :=
      hl₁.store (.lists ((ls ++ [list]).map some ++ List.replicate left none))
    have hcells : listCells (ls ++ [list]) (lists ++ [HashMapStorage.listCreate]) =
        (list, .list ⟨none, none, 0⟩) ::ₘ listCells ls lists := by
      simp only [listCells, List.zip_append hlen, List.map_append, ← Multiset.coe_add]
      rw [Multiset.add_comm]
      rfl
    have hsize : ls.length < (ls.map some ++ List.replicate (left + 1) (none : Ptr)).length := by
      simp
    rw [← Multiset.cons_add, ← hcells] at hl₂
    obtain ⟨h', ls', hrun, htop', hlen', hl'⟩ := ih (by simp [hlen]) hl₂
    rw [List.length_append, List.length_singleton] at hlen' hrun
    refine ⟨h', ls', ?_, htop₁.trans (htop₂.trans htop'), by omega, ?_⟩
    · simp only [createLists, listCreate, hp, setListAt, hload, ok_bind, if_pos hsize, hset, hstore]
      exact hrun
    · convert hl' using 3
      simp [List.replicate_succ]

theorem tableCreate_table {n : Int} (hc : HashMapStorage.tableCreate n = some table)
    (hl : Ledger h rest) (m : ObjMem) :
    ∃ t h', tableCreate h n m = .ok (some t, h') ∧ HoldsTable h' t table rest := by
  unfold HashMapStorage.tableCreate at hc
  split at hc
  · cases hc
  rename_i hn
  cases hc
  obtain ⟨hl₁, htop₁⟩ := hl.malloc m.malloc
  obtain ⟨hl₂, htop₂⟩ := hl₁.place m.malloc (.lists (List.replicate n.toNat none))
  generalize hp : h.alloc m.malloc = placed at hl₁ htop₁ hl₂ htop₂
  obtain ⟨t, h₁⟩ := placed
  generalize hp₂ : h₁.place m.malloc (.lists (List.replicate n.toNat none)) = placed at hl₂ htop₂
  obtain ⟨arr, h₂⟩ := placed
  rw [Multiset.cons_swap] at hl₂
  obtain ⟨h₃, hstore, hl₃, htop₃⟩ := hl₂.store (.table ⟨some arr, 0, n⟩)
  rw [Multiset.cons_swap] at hl₃
  have hstart : Ledger h₃
      ((arr, .lists (([] : List Nat).map some ++ List.replicate n.toNat none)) ::ₘ
        (listCells [] [] + (t, .table ⟨some arr, 0, n⟩) ::ₘ rest)) := by
    simpa [listCells] using hl₃
  obtain ⟨h₄, ls, hrun, htop₄, hlen, hl₄⟩ := createLists_makes m rfl hstart
  refine ⟨t, h₄, ?_, arr, ls, by simpa using hlen, 0, .empty, ?_, Nat.zero_le _⟩
  · simp only [tableCreate, hn, ↓reduceIte, hp, hp₂, hstore, ok_bind]
    simp only [List.length_nil] at hrun
    simp [hrun]
  · convert hl₄ using 1
    simp only [headCells, List.nil_append, ← Multiset.singleton_add]
    abel

-- ---------------------------------------------------------------------------
-- table_destroy
-- ---------------------------------------------------------------------------

theorem listDestroyLoop_frees {xs : Nodes} (hh : HoldsNodes h view rest)
    (hc : Linked nodeShape view p xs none) (hf : xs.length < fuel) :
    ∃ h' view', listDestroyLoop fuel p h = .ok h' ∧ HoldsNodes h' view' rest ∧
      ∀ a, view'.cell a = if a ∈ addrs xs then none else view.cell a := by
  induction xs generalizing h view p fuel with
  | nil =>
    cases hc
    obtain ⟨fuel, rfl⟩ : ∃ n, fuel = n + 1 := ⟨fuel - 1, by simp at hf; omega⟩
    exact ⟨h, view, rfl, hh, fun a => by simp⟩
  | cons x xs ih =>
    have hnd := hc.nodup
    obtain ⟨rfl, v, hv, -, hc⟩ := hc
    obtain ⟨fuel, rfl⟩ : ∃ n, fuel = n + 1 := ⟨fuel - 1, by simp at hf; omega⟩
    obtain ⟨e, h₁, h₂, hnode, hdestroy, hfree, hh₂⟩ := free_node hh hv
    have hc' : Linked nodeShape (view.set x.1 none) v.proximo xs none :=
      hc.set_frame (List.nodup_cons.mp hnd).1 none
    obtain ⟨h', view', hrun, hh', hcells⟩ := ih hh₂ hc' (by simpa using hf)
    refine ⟨h', view', ?_, hh', fun a => ?_⟩
    · simp only [listDestroyLoop, hnode, hdestroy, hfree, hrun, ok_bind]
    · rw [hcells]
      by_cases ha : a = x.1
      · simp [ha]
      · simp [ha, Heap.set_cell_ne _ _ ha]

theorem listDestroy_frees {xs : Nodes} (hh : HoldsNodes h view ((l, .list list) ::ₘ rest))
    (hc : Linked nodeShape view list.head xs none) :
    ∃ h' view', listDestroy h (some l) = .ok h' ∧ HoldsNodes h' view' rest ∧
      ∀ a, view'.cell a = if a ∈ addrs xs then none else view.cell a := by
  have hlist : load Obj.asList h (some l) = .ok list :=
    load_cell (rest_cell hh (Multiset.mem_cons_self ..)) rfl
  obtain ⟨-, -, -, htop⟩ := id hh
  have hfuel : xs.length < h.top + 1 := Nat.lt_succ_of_le (hc.length_le_top.trans htop)
  obtain ⟨h₁, view', hrun, ⟨s, hcarries, hl, htop₁⟩, hcells⟩ := listDestroyLoop_frees hh hc hfuel
  rw [Multiset.add_cons] at hl
  obtain ⟨h₂, hfree, hl₂, htop₂⟩ := hl.free
  refine ⟨h₂, view', ?_, ⟨s, hcarries, hl₂, htop₁.trans htop₂⟩, hcells⟩
  rw [listDestroy, hlist, ok_bind, hrun, ok_bind, hfree]

structure Chains (view : Heap NodeT) (lists : List ListT) (chains : List Nodes) : Prop where
  linked : List.Forall₂ (fun list xs => Linked nodeShape view list.head xs none) lists chains
  disjoint : chains.Pairwise fun xs ys => ∀ a ∈ addrs xs, a ∉ addrs ys
  all : ∀ a v, view.cell a = some v → ∃ xs ∈ chains, a ∈ addrs xs

theorem Chains.others {view' : Heap NodeT} (hc : Chains view (list :: lists) (xs :: chains))
    (hv : ∀ a, view'.cell a = if a ∈ addrs xs then none else view.cell a) :
    Chains view' lists chains := by
  obtain ⟨hlinked, hdisjoint, hall⟩ := hc
  obtain ⟨-, hlinked⟩ := List.forall₂_cons.mp hlinked
  obtain ⟨hfirst, hdisjoint⟩ := List.pairwise_cons.mp hdisjoint
  refine ⟨?_, hdisjoint, fun a v ha => ?_⟩
  · refine (List.forall₂_iff_get.mpr ⟨hlinked.length_eq, fun i h₁ h₂ => ?_⟩)
    refine (List.Forall₂.get hlinked h₁ h₂).frame fun a ha => ?_
    have hnot : a ∉ addrs xs := fun hx => hfirst _ (List.getElem_mem h₂) a hx ha
    rw [hv, if_neg hnot]
  · rw [hv] at ha
    split at ha
    · cases ha
    · rename_i hnot
      obtain ⟨ys, hys, hmem⟩ := hall a v ha
      rcases List.mem_cons.mp hys with rfl | hys
      · exact absurd hmem hnot
      · exact ⟨ys, hys, hmem⟩

theorem destroyLists_frees {ls : List Nat} {lists : List ListT} {chains : List Nodes}
    (hc : Chains view lists chains) (hlen : ls.length = lists.length)
    (hh : HoldsNodes h view (listCells ls lists + rest))
    (harr : (arr, .lists (before ++ ls.map some)) ∈ rest) :
    ∃ h' view', destroyLists (some arr) lists.length before.length h = .ok h' ∧
      HoldsNodes h' view' rest ∧ ∀ a, view'.cell a = none := by
  induction lists generalizing h view ls chains before with
  | nil =>
    obtain rfl : ls = [] := List.length_eq_zero_iff.mp hlen
    obtain rfl : chains = [] := List.forall₂_nil_left_iff.mp hc.linked
    refine ⟨h, view, rfl, by simpa [listCells] using hh, fun a => ?_⟩
    cases hv : view.cell a with
    | none => rfl
    | some v =>
      obtain ⟨xs, hxs, -⟩ := hc.all a v hv
      exact (List.not_mem_nil hxs).elim
  | cons list lists ih =>
    obtain ⟨l, ls, rfl⟩ : ∃ l ls', ls = l :: ls' := by
      cases ls with
      | nil => simp at hlen
      | cons l ls => exact ⟨l, ls, rfl⟩
    obtain ⟨xs, chains, hfirst, -, rfl⟩ := List.forall₂_cons_left_iff.mp hc.linked
    have hat : listAt h (some arr) before.length = .ok (some l) := by
      have harr' : load Obj.asLists h (some arr) = .ok (before ++ (l :: ls).map some) :=
        load_cell (rest_cell hh (Multiset.mem_add.mpr (.inr harr))) rfl
      simp [listAt, harr', show ¬ ((before.length : Int) < 0) by omega]
    have hcells : listCells (l :: ls) (list :: lists) =
        (l, .list list) ::ₘ listCells ls lists := rfl
    rw [hcells, Multiset.cons_add] at hh
    obtain ⟨h₁, view₁, hdestroy, hh₁, hv₁⟩ := listDestroy_frees hh hfirst
    have harr₁ : (arr, Obj.lists ((before ++ [some l]) ++ ls.map some)) ∈ rest := by
      simpa using harr
    obtain ⟨h₂, view₂, hrun, hh₂, hv₂⟩ := ih (hc.others hv₁) (by simpa using hlen) hh₁ harr₁
    refine ⟨h₂, view₂, ?_, hh₂, hv₂⟩
    rw [List.length_append, List.length_singleton] at hrun
    simp only [List.length_cons, destroyLists, hat, hdestroy, ok_bind]
    exact hrun

/-- `table_destroy` releases all that belongs to the table, each block once. -/
theorem tableDestroy_frees {table : TableT} (hh : HoldsTable h t table rest)
    (hc : Chains table.nodes table.list chains) :
    ∃ h', tableDestroy h (some t) = .ok h' ∧ Ledger h' rest := by
  obtain ⟨arr, ls, hlen, hn⟩ := hh
  have ht : load Obj.asTable h (some t) = .ok ⟨some arr, table.size, table.countLists⟩ :=
    load_cell (rest_cell hn (x := (t, .table _)) (by simp [headCells])) rfl
  have harr : (arr, .lists (([] : List Ptr) ++ ls.map some)) ∈
      headCells t arr ls table + rest := by
    simp [headCells]
  obtain ⟨h₁, view₁, hrun, ⟨s, hcarries, hl, -⟩, hv⟩ := destroyLists_frees hc hlen hn harr
  rw [hcarries.eq_zero hv, Multiset.zero_add, headCells, Multiset.cons_add, Multiset.singleton_add,
    Multiset.cons_swap] at hl
  obtain ⟨h₂, hfree₂, hl₂, -⟩ := hl.free
  obtain ⟨h₃, hfree₃, hl₃, -⟩ := hl₂.free
  have hcount : table.countLists.toNat = table.list.length := by
    have := table.counted
    omega
  refine ⟨h₃, ?_, hl₃⟩
  simp only [List.length_nil] at hrun
  simp [tableDestroy, ht, hcount, hrun, hfree₂, hfree₃]

end Objects

end HashMapStorage

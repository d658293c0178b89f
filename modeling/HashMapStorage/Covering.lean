import HashMapStorage.Releasing
import HashMapStorage.Serving

/-!
# Nodes that no list reaches

`TableT.Covered`: every node of the table is in the chain of a list, so that
`table_destroy` gets to all of them. A removal releases the node it unlinks and
a new node is linked, so `table_put` and `table_del` keep it.
-/

namespace HashMapStorage

open Machine

def TableT.Covered (table : TableT) : Prop :=
  ∀ a node, table.nodes.cell a = some node →
    ∃ (i : Nat) (list : ListT) (xs : Nodes), table.list[i]? = some list ∧
      list.Holds table.nodes xs ∧ a ∈ addrs xs

theorem tableCreate_covered (hc : tableCreate n = some table) : table.Covered := by
  unfold tableCreate at hc
  split at hc
  · cases hc
  · cases hc
    intro a node ha
    cases ha

-- ---------------------------------------------------------------------------
-- A removal releases a node
-- ---------------------------------------------------------------------------

def Releases (h h' : Heap NodeT) : Prop := ∃ a node, h.cell a = some node ∧ h'.cell a = none

theorem listUnlink_releases (hu : listUnlink h list p = .ok (h', list')) : Releases h h' := by
  obtain ⟨node, hnode, hu⟩ := seq_ok hu
  obtain ⟨del, hdel, hu⟩ := seq_ok hu
  obtain ⟨h₁, hset, hu⟩ := seq_ok hu
  obtain ⟨h₂, hfree, hu⟩ := seq_ok hu
  obtain ⟨size, -, hu⟩ := seq_ok hu
  cases hu
  obtain ⟨d, hd, hc⟩ := Heap.load_ok hdel
  rw [hd] at hfree
  obtain ⟨-, rfl⟩ := Heap.free_ok hfree
  exact ⟨d, del, hc, Heap.set_cell ..⟩

theorem listRemoveLoop_releases (hr : listRemoveLoop h list key fuel p = .ok (0, h', list')) :
    Releases h h' := by
  induction fuel generalizing p with
  | zero => cases hr
  | succ fuel ih =>
    obtain ⟨node, -, hr⟩ := seq_ok hr
    split at hr
    · obtain ⟨next, -, hr⟩ := seq_ok hr
      split at hr
      · obtain ⟨⟨h₁, list₁⟩, hunlink, hr⟩ := seq_ok hr
        cases hr
        exact listUnlink_releases hunlink
      · exact ih hr
    · obtain ⟨next, -, hr⟩ := seq_ok hr
      split at hr
      · obtain ⟨⟨h₁, list₁⟩, hunlink, hr⟩ := seq_ok hr
        cases hr
        exact listUnlink_releases hunlink
      · cases hr

theorem listRemove_releases (hr : listRemove h list (some key) = .ok (0, h', list')) :
    Releases h h' := by
  unfold listRemove at hr
  cases hhead : list.head with
  | none =>
    rw [hhead] at hr
    cases hr
  | some head =>
    rw [hhead] at hr
    obtain ⟨atual, hload, hr⟩ := seq_ok hr
    obtain ⟨_, ha, hc⟩ := Heap.load_ok hload
    cases ha
    split at hr
    · obtain ⟨h₁, hfree, hr⟩ := seq_ok hr
      obtain ⟨size, -, hr⟩ := seq_ok hr
      cases hr
      obtain ⟨-, rfl⟩ := Heap.free_ok hfree
      exact ⟨head, atual, hc, Heap.set_cell ..⟩
    · exact listRemoveLoop_releases hr

theorem listRemove_covers (hl : ListT.Holds h list (ys ++ (a, e) :: zs)) (he : e.key = key)
    (hy : ∀ y ∈ ys, y.2.key ≠ key)
    (hr : listRemove h list (some key) = .ok (0, h', list')) (hc : h'.cell c = some node) :
    c ∈ addrs (ys ++ zs) ∨ (c ∉ addrs (ys ++ (a, e) :: zs) ∧ h.cell c = some node) := by
  obtain ⟨h₁, list₁, hremove, hl₁, -, hframe⟩ := listRemove_holds hl he hy
  rw [hremove] at hr
  cases hr
  obtain ⟨b, w, hb, hfree⟩ := listRemove_releases hremove
  have hmem : b ∈ addrs (ys ++ (a, e) :: zs) := by
    by_contra hnot
    rw [hframe b hnot, hb] at hfree
    cases hfree
  have hgone : b ∉ addrs (ys ++ zs) := hl₁.chain.not_mem_of_free hfree
  have hba : b = a := by
    simp only [addrs_append, addrs_cons, List.mem_append, List.mem_cons] at hmem hgone
    tauto
  by_cases hin : c ∈ addrs (ys ++ (a, e) :: zs)
  · left
    have hca : c ≠ a := by
      rintro rfl
      rw [← hba, hfree] at hc
      cases hc
    simp only [addrs_append, addrs_cons, List.mem_append, List.mem_cons] at hin ⊢
    tauto
  · exact .inr ⟨hin, by rw [← hframe c hin, hc]⟩

-- ---------------------------------------------------------------------------
-- The operations
-- ---------------------------------------------------------------------------

theorem TableT.Covered.setList {table : TableT} {i : Nat} (hc : table.Covered) (ht : table.Maps m)
    (hl : table.list[i]? = some l) (hx : l.Holds table.nodes xs)
    (hb : Bucket table.countLists m i xs) (hx' : l'.Holds nodes' xs')
    (hold : ∀ a v, a ∉ addrs xs → table.nodes.cell a = some v → nodes'.cell a = some v)
    (hnew : ∀ a v, nodes'.cell a = some v →
      a ∈ addrs xs' ∨ (a ∉ addrs xs ∧ ∃ w, table.nodes.cell a = some w)) :
    (table.setList i nodes' l').Covered := by
  have hlen : i < table.list.length := (List.getElem?_eq_some_iff.mp hl).1
  intro a node ha
  rcases hnew a node ha with hin | ⟨hout, w, hw⟩
  · exact ⟨i, l', xs', by simp [TableT.setList, hlen], hx', hin⟩
  · obtain ⟨j, l₂, ys, hj, hy, hin⟩ := hc a w hw
    have hij : i ≠ j := by
      rintro rfl
      rw [hl, Option.some.injEq] at hj
      subst hj
      exact hout (hx.chain.unique hy.chain ▸ hin)
    obtain ⟨ys', hy', hby⟩ := ht.buckets j l₂ hj
    obtain rfl := hy.chain.unique hy'.chain
    refine ⟨j, l₂, ys, ?_, hy.frame fun b hmem => ?_, hin⟩
    · simpa [TableT.setList, List.getElem?_set_ne hij] using hj
    · obtain ⟨v, hv⟩ := hy.chain.allocated hmem
      rw [hv]
      exact hold b v (hby.disjoint hb (Ne.symm hij) hy hx hmem) hv

theorem tableDel_covered {table table' : TableT} (hc : table.Covered) (ht : table.Maps m)
    (hk : Hashed table.countLists key) (h : tableDel table (some key) = .ok (r, table')) :
    table'.Covered := by
  obtain ⟨i, l, xs, hhash, hl, hat, hx, hb⟩ := ht.bucket hk
  have hget := listGet_holds hx key
  simp only [tableDel, ht.some_list, ↓reduceIte, hhash, hat, hget, ok_bind] at h
  cases hfind : findEntry key xs with
  | none =>
    rw [hfind] at h
    cases h
    exact hc
  | some e =>
    rw [hfind] at h
    obtain ⟨ys, a, zs, rfl, rfl, hy⟩ := findEntry_split hfind
    obtain ⟨nodes', l', hrun, hx', -, hframe⟩ := listRemove_holds hx rfl hy
    simp only [hrun, ok_bind] at h
    obtain ⟨size, -, h⟩ := seq_ok h
    cases h
    refine hc.setList ht hl hx hb hx' (fun b v hout hv => (hframe b hout).trans hv) ?_
    intro b v hv
    exact (listRemove_covers hx rfl hy hrun hv).imp_right fun hout => ⟨hout.1, v, hout.2⟩

theorem tableAddEntry_covered {table table' : TableT} (hc : table.Covered) (ht : table.Maps m)
    (hk : Hashed table.countLists entry.key) (ha : appendable table entry.key = true)
    (h : tableAddEntry table entry node = .ok (r, table')) : table'.Covered := by
  obtain ⟨i, l, xs, hhash, hl, hat, hx, hb⟩ := ht.bucket hk
  have hget := listGet_holds hx entry.key
  simp only [tableAddEntry, hhash, hat, hget, ok_bind] at h
  cases hfind : findEntry entry.key xs with
  | none =>
    rw [hfind] at h
    obtain ⟨hstale, hfits⟩ : staleTail nodeShape table.nodes l.head l.tail = false ∧
        IsInt (table.size + 1) := by
      simpa [appendable, hhash, hat, hget, hfind] using ha
    have hlfits : IsInt (l.size + 1) := by
      have hle := ht.size_ge hl
      have hlen := hx.size
      simp only [IsInt, intMin, intMax] at hfits ⊢
      omega
    obtain ⟨nodes', l', hrun, hx', hframe⟩ := listAdd_holds entry hx hfind hlfits hstale node
    simp only [hrun, ok_bind] at h
    obtain ⟨size, -, h⟩ := seq_ok h
    cases h
    refine hc.setList ht hl hx hb hx' (fun b v hout hv => ?_) fun b v hv => ?_
    · exact (hframe b hout (Heap.ne_of_free hv (node.fresh _))).trans hv
    · by_cases hin : b ∈ addrs xs
      · exact .inl (by simp [hin])
      · by_cases hnew : b = node.addr table.nodes
        · exact .inl (by simp [hnew])
        · exact .inr ⟨hin, v, (hframe b hin hnew).symm.trans hv⟩
  | some e =>
    rw [hfind] at h
    obtain ⟨ys, a, zs, rfl, he, hy⟩ := findEntry_split hfind
    obtain ⟨nodes₁, l₁, hremove, hx₁, htail, hframe₁⟩ := listRemove_holds hx he hy
    have habsent : findEntry entry.key (ys ++ zs) = none := by
      rw [findEntry_remove hb.distinct, if_pos he]
    have hlen : (ys ++ (a, e) :: zs).length = (ys ++ zs).length + 1 := by simp; omega
    have hone : l₁.size + 1 = l.size := by
      rw [hx₁.size, hx.size, hlen]
      omega
    obtain ⟨nodes', l', hrun, hx', hframe⟩ := listAdd_holds entry hx₁ habsent
      (hone ▸ hx.fits) (removed_tail hx hx₁ htail) node
    simp only [hremove, hrun, ok_bind] at h
    cases h
    refine hc.setList ht hl hx hb hx' (fun b v hout hv => ?_) fun b v hv => ?_
    · have hv₁ := (hframe₁ b hout).trans hv
      have hout₁ : b ∉ addrs (ys ++ zs) := by
        simp only [addrs_append, addrs_cons, List.mem_append, List.mem_cons, not_or] at hout ⊢
        exact ⟨hout.1, hout.2.2⟩
      exact (hframe b hout₁ (Heap.ne_of_free hv₁ (node.fresh _))).trans hv₁
    · by_cases hin : b ∈ addrs (ys ++ zs)
      · exact .inl (by rw [addrs_append]; exact List.mem_append_left _ hin)
      · by_cases hnew : b = node.addr nodes₁
        · exact .inl (by simp [hnew])
        · have hv₁ := (hframe b hin hnew).symm.trans hv
          have hcovers := listRemove_covers hx he hy hremove hv₁
          exact .inr ⟨(hcovers.resolve_left hin).1, v, (hcovers.resolve_left hin).2⟩

theorem tablePut_covered {table table' : TableT} {value : DataT} (hc : table.Covered)
    (ht : table.Maps m) (hk : Hashed table.countLists key) (ha : appendable table key = true)
    (h : tablePut table (some key) (some value) mem = .ok (r, table')) : table'.Covered := by
  rw [tablePut_eq ht.some_list] at h
  obtain ⟨copy, -, h⟩ := seq_ok h
  cases copy with
  | none =>
    cases h
    exact hc
  | some copy => exact tableAddEntry_covered hc ht hk ha h

theorem TableT.Maps.all_chains {table : TableT} (ht : table.Maps m) (hc : table.Covered) :
    ∃ chains : List Nodes, table.Chained chains ∧
      (∀ i xs, chains[i]? = some xs → Bucket table.countLists m i xs) ∧
      Objects.Chains table.nodes table.list chains := by
  obtain ⟨chains, hchained, hbuckets⟩ := ht.chains
  have hlen := hchained.lists.length_eq
  refine ⟨chains, hchained, hbuckets, ?_, ?_, ?_⟩
  · exact hchained.lists.imp fun _ _ hcounts => hcounts.chain
  · rw [List.pairwise_iff_getElem]
    intro i j hi hj hij a hai haj
    obtain ⟨x, hx, rfl⟩ := List.mem_map.mp hai
    obtain ⟨y, hy, hxy⟩ := List.mem_map.mp haj
    have hli := (hchained.lists.get (hlen ▸ hi) hi).chain
    have hlj := (hchained.lists.get (hlen ▸ hj) hj).chain
    obtain ⟨v, hv, hix⟩ := hli.cell_of_mem (a := x.1) (b := x.2) hx
    obtain ⟨w, hw, hiy⟩ := hlj.cell_of_mem (a := y.1) (b := y.2) hy
    rw [hxy, hv] at hw
    cases hw
    have hkey : x.2 = y.2 := hix.symm.trans hiy
    -- the same node has one key, and one key one list
    have hpi := (hbuckets i _ (List.getElem?_eq_getElem hi)).placed x hx
    have hpj := (hbuckets j _ (List.getElem?_eq_getElem hj)).placed y hy
    rw [← hkey, hpi] at hpj
    cases hpj
    exact Nat.lt_irrefl _ hij
  · intro a node ha
    obtain ⟨i, l, xs, hl, hx, hin⟩ := hc a node ha
    obtain ⟨hi, rfl⟩ := List.getElem?_eq_some_iff.mp hl
    have hget := (hchained.lists.get hi (hlen ▸ hi)).chain
    exact ⟨_, List.getElem_mem _, hx.chain.unique hget ▸ hin⟩

end HashMapStorage

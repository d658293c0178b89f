import HashMapStorage.TableKeys
import HashMapStorage.TableObjectLaws

/-!
# Arrays of keys, object by object

`table_get_keys` copies every key of a table into one array with a NULL at its
end: the arrays that `list_get_keys` makes on the way are released, their
strings go over. `table_free_keys` releases the array with its strings.
-/

namespace HashMapStorage

open Machine

def stringCells (as : List Nat) (keys : List CStr) : Cells Obj :=
  ((as.zip keys).map fun x => (x.1, Obj.str x.2) : List (Nat × Obj))

def stringSlots (as : List Nat) : List (Option Ptr) := as.map fun a => some (some a)

@[simp] theorem stringSlots_nil : stringSlots [] = [] := rfl

@[simp] theorem stringSlots_cons (a : Nat) (as : List Nat) :
    stringSlots (a :: as) = some (some a) :: stringSlots as := rfl

@[simp] theorem stringSlots_length (as : List Nat) : (stringSlots as).length = as.length := by
  simp [stringSlots]

@[simp] theorem stringSlots_append (as bs : List Nat) :
    stringSlots (as ++ bs) = stringSlots as ++ stringSlots bs := by
  simp [stringSlots]

@[simp] theorem stringCells_nil : stringCells [] [] = 0 := rfl

@[simp] theorem stringCells_cons (a : Nat) (as : List Nat) (key : CStr) (keys : List CStr) :
    stringCells (a :: as) (key :: keys) = (a, .str key) ::ₘ stringCells as keys := rfl

theorem stringCells_append {as : List Nat} {keys : List CStr} (hl : as.length = keys.length)
    (bs : List Nat) (others : List CStr) :
    stringCells (as ++ bs) (keys ++ others) = stringCells as keys + stringCells bs others := by
  simp only [stringCells, List.zip_append hl, List.map_append, ← Multiset.coe_add]

namespace Objects

variable {h h' : Heap Obj} {rest : Cells Obj} {view : Heap NodeT}

theorem HoldsNodes.place (hh : HoldsNodes h view rest) (m : Malloc Obj) (o : Obj) :
    HoldsNodes (h.place m o).2 view (((h.place m o).1, o) ::ₘ rest) := by
  obtain ⟨s, hc, hl, htop⟩ := hh
  obtain ⟨hl', htop'⟩ := hl.place m o
  exact ⟨s, hc, by rwa [Multiset.add_cons], htop.trans htop'⟩

theorem HoldsNodes.free (hh : HoldsNodes h view ((a, o) ::ₘ rest)) :
    ∃ h', h.free (some a) = .ok h' ∧ HoldsNodes h' view rest := by
  obtain ⟨s, hc, hl, htop⟩ := hh
  rw [Multiset.add_cons] at hl
  obtain ⟨h', hfree, hl', htop'⟩ := hl.free
  exact ⟨h', hfree, s, hc, hl', htop.trans htop'⟩

-- ---------------------------------------------------------------------------
-- list_get_keys
-- ---------------------------------------------------------------------------

theorem setKey_nodes (hh : HoldsNodes h view ((rt, .keys (before ++ slot :: after)) ::ₘ rest))
    (key : Ptr) :
    ∃ h', setKey h (some rt) before.length key = .ok h' ∧
      HoldsNodes h' view ((rt, .keys (before ++ some key :: after)) ::ₘ rest) := by
  have hload : load Obj.asKeys h (some rt) = .ok (before ++ slot :: after) :=
    load_cell (rest_cell hh (Multiset.mem_cons_self ..)) rfl
  obtain ⟨h', hstore, hh'⟩ := store_rest hh (.keys (before ++ some key :: after))
  exact ⟨h', by simp [setKey, hload, hstore], hh'⟩

theorem listGetKeysLoop_nodes {xs : Nodes} (m : ObjMem) (before : List (Option Ptr))
    (hh : HoldsNodes h view
      ((rt, .keys (before ++ List.replicate (xs.length + 1) none)) ::ₘ rest))
    (hc : Linked nodeShape view p xs none) (hf : xs.length < fuel) :
    ∃ h' as, listGetKeysLoop m (some rt) fuel p before.length h = .ok h' ∧
      as.length = xs.length ∧
      HoldsNodes h' view ((rt, .keys (before ++ stringSlots as ++ [some none])) ::ₘ
        (stringCells as (xs.map fun x => x.2.key) + rest)) := by
  induction xs generalizing h before p rest fuel with
  | nil =>
    cases hc
    obtain ⟨fuel, rfl⟩ : ∃ n, fuel = n + 1 := ⟨fuel - 1, by simp at hf; omega⟩
    obtain ⟨h', hset, hh'⟩ := setKey_nodes hh none
    exact ⟨h', [], hset, rfl, by simpa using hh'⟩
  | cons x xs ih =>
    obtain ⟨rfl, v, hv, hi, hc⟩ := hc
    obtain ⟨fuel, rfl⟩ : ∃ n, fuel = n + 1 := ⟨fuel - 1, by simp at hf; omega⟩
    obtain ⟨e, s, hnode, he, hw⟩ := load_node hh hv
    obtain ⟨k, hentry, hkey⟩ : ∃ k, (∃ v', load Obj.asEntry h (some e) = .ok ⟨some k, v'⟩) ∧
        load Obj.asStr h (some k) = .ok x.2.key := by
      have hkey := entryKey_within he hw
      obtain ⟨entry, hentry, hkey⟩ := seq_ok hkey
      obtain ⟨k, v'⟩ := entry
      cases k with
      | none => cases hkey
      | some k =>
        have hi : v.entrada = x.2 := hi
        exact ⟨k, ⟨v', hentry⟩, hi ▸ hkey⟩
    obtain ⟨v', hentry⟩ := hentry
    have hplaced := HoldsNodes.place hh m.malloc (.str x.2.key)
    generalize hp : h.place m.malloc (.str x.2.key) = placed at hplaced
    obtain ⟨a, h₁⟩ := placed
    rw [Multiset.cons_swap, List.length_cons, List.replicate_succ] at hplaced
    obtain ⟨h₂, hset, hh₂⟩ := setKey_nodes hplaced (some a)
    rw [List.append_cons] at hh₂
    have hc' : Linked nodeShape view v.proximo xs none := hc
    obtain ⟨h', as, hrun, hlen, hh'⟩ := ih _ hh₂ hc' (by simpa using hf)
    rw [List.length_append, List.length_singleton] at hrun
    refine ⟨h', a :: as, ?_, by simpa using hlen, ?_⟩
    · simp only [listGetKeysLoop, hnode, hentry, strdup, hkey, hp, hset, hrun, ok_bind, pure_eq_ok]
    · convert hh' using 2
      · simp
      · simp [Multiset.add_cons]

theorem listGetKeys_nodes {list : ListT} {xs : Nodes} (m : ObjMem) (hh : HoldsNodes h view rest)
    (hl : (l, .list list) ∈ rest) (hc : Linked nodeShape view list.head xs none)
    (hs : list.size = xs.length) (hint : IsInt (list.size + 1)) :
    ∃ rt h' as tail, listGetKeys h (some l) m = .ok (rt, h') ∧ as.length = xs.length ∧
      HoldsNodes h' view ((rt, .keys (stringSlots as ++ tail)) ::ₘ
        (stringCells as (xs.map fun x => x.2.key) + rest)) := by
  have hlist : load Obj.asList h (some l) = .ok list := load_cell (rest_cell hh hl) rfl
  by_cases hzero : list.size = 0
  · obtain rfl : xs = [] := List.length_eq_zero_iff.mp (by omega)
    have hplaced := HoldsNodes.place hh m.malloc (.keys [none])
    refine ⟨_, _, [], [none], ?_, rfl, by simpa using hplaced⟩
    simp [listGetKeys, hlist, hzero]
  · have hslots : (list.size + 1).toNat = xs.length + 1 := by omega
    have hplaced := HoldsNodes.place hh m.malloc (.keys (List.replicate (xs.length + 1) none))
    generalize hp : h.place m.malloc (.keys (List.replicate (xs.length + 1) none)) = placed
      at hplaced
    obtain ⟨rt, h₁⟩ := placed
    obtain ⟨-, -, -, htop⟩ := id hplaced
    have hfuel : xs.length < h₁.top + 1 := Nat.lt_succ_of_le (hc.length_le_top.trans htop)
    obtain ⟨h', as, hrun, hlen, hh'⟩ :=
      listGetKeysLoop_nodes m [] (by simpa using hplaced) hc hfuel
    refine ⟨rt, h', as, [some none], ?_, hlen, by simpa using hh'⟩
    simp only [List.length_nil] at hrun
    simp [listGetKeys, hlist, hzero, checkInt_of_isInt hint, hslots, hp, hrun]

-- ---------------------------------------------------------------------------
-- table_get_keys
-- ---------------------------------------------------------------------------

theorem moveKeys_nodes {as : List Nat}
    (hna : (na, .keys (before ++ stringSlots as ++ tail)) ∈ rest)
    (hh : HoldsNodes h view
      ((fa, .keys (done ++ List.replicate (as.length + n) none)) ::ₘ rest)) :
    ∃ h', moveKeys (some fa) (some na) as.length before.length done.length h =
        .ok (done.length + as.length, h') ∧
      HoldsNodes h' view
        ((fa, .keys (done ++ stringSlots as ++ List.replicate n none)) ::ₘ rest) := by
  induction as generalizing h before done with
  | nil => exact ⟨h, rfl, by simpa using hh⟩
  | cons a as ih =>
    have hsource : load Obj.asKeys h (some na) =
        .ok (before ++ stringSlots (a :: as) ++ tail) :=
      load_cell (rest_cell hh (Multiset.mem_cons_of_mem hna)) rfl
    have htarget : load Obj.asKeys h (some fa) =
        .ok (done ++ List.replicate ((a :: as).length + n) none) :=
      load_cell (rest_cell hh (Multiset.mem_cons_self ..)) rfl
    have hset : (done ++ List.replicate ((a :: as).length + n) (none : Option Ptr)).set done.length
        (some (some a)) = done ++ [some (some a)] ++ List.replicate (as.length + n) none := by
      simp [Nat.add_right_comm, List.replicate_succ]
    obtain ⟨h₁, hstore, hh₁⟩ := store_rest hh
      (.keys (done ++ [some (some a)] ++ List.replicate (as.length + n) none))
    have hna₁ : (na, Obj.keys (before ++ [some (some a)] ++ stringSlots as ++ tail)) ∈ rest := by
      simpa using hna
    obtain ⟨h', hrun, hh'⟩ := ih hna₁ hh₁
    refine ⟨h', ?_, by simpa using hh'⟩
    rw [List.length_append, List.length_append, List.length_singleton] at hrun
    have hslot : (before ++ stringSlots (a :: as) ++ tail)[before.length]? =
        some (some (some a)) := by simp
    have hroom : done.length <
        (done ++ List.replicate ((a :: as).length + n) (none : Option Ptr)).length := by simp
    have hcount : done.length + (a :: as).length = done.length + 1 + as.length := by
      simp
      omega
    rw [hcount, List.length_cons, moveKeys]
    simp only [hsource, htarget, hslot, if_pos hroom, hset, hstore, ok_bind]
    exact hrun

theorem tableGetKeysLoop_nodes {ls : List Nat} {lists : List ListT} {chains : List Nodes}
    (m : ObjMem) (done : List Nat) (hlen : ls.length = lists.length)
    (hc : List.Forall₂ (ListT.Counts view) lists chains) (hs : ∀ l ∈ lists, IsInt (l.size + 1))
    (harr : (arr, .lists (before ++ ls.map some)) ∈ rest)
    (hls : ∀ x ∈ ls.zip lists, (x.1, .list x.2) ∈ rest)
    (hh : HoldsNodes h view ((fa, .keys (stringSlots done ++
      List.replicate ((keysOf chains).length + 1) none)) ::ₘ rest)) :
    ∃ h' as, tableGetKeysLoop (some arr) (some fa) m lists.length before.length done.length h =
        .ok h' ∧ as.length = (keysOf chains).length ∧
      HoldsNodes h' view ((fa, .keys (stringSlots (done ++ as) ++ [some none])) ::ₘ
        (stringCells as (keysOf chains) + rest)) := by
  induction hc generalizing h ls before done rest with
  | nil =>
    obtain ⟨h', hset, hh'⟩ := setKey_nodes hh none
    rw [stringSlots_length] at hset
    exact ⟨h', [], hset, rfl, by simpa [keysOf] using hh'⟩
  | @cons list xs lists chains hx hc ih =>
    obtain ⟨l, ls, rfl⟩ : ∃ l ls', ls = l :: ls' := by
      cases ls with
      | nil => simp at hlen
      | cons l ls => exact ⟨l, ls, rfl⟩
    have hl : (l, .list list) ∈ rest := hls (l, list) (by simp)
    have hat : listAt h (some arr) before.length = .ok (some l) := by
      have harr' : load Obj.asLists h (some arr) = .ok (before ++ (l :: ls).map some) :=
        load_cell (rest_cell hh (Multiset.mem_cons_of_mem harr)) rfl
      simp [listAt, harr', show ¬ ((before.length : Int) < 0) by omega]
    obtain ⟨na, h₁, as, tail, hkeys, hcount, hh₁⟩ :=
      listGetKeys_nodes m hh (Multiset.mem_cons_of_mem hl) hx.chain hx.size (hs list (by simp))
    have hsize : listSize h₁ (some l) = .ok list.size := by
      have hlist : load Obj.asList h₁ (some l) = .ok list :=
        load_cell (rest_cell hh₁ (x := (l, .list list)) (by simp [hl])) rfl
      rw [listSize, hlist, ok_bind, pure_eq_ok]
    have htoNat : list.size.toNat = as.length := by
      rw [hx.size, hcount]
      rfl
    -- the array that is filled comes first, then the one that is emptied
    have hslots : (keysOf (xs :: chains)).length + 1 =
        as.length + ((keysOf chains).length + 1) := by
      simp [hcount, Nat.add_assoc]
    rw [Multiset.add_cons, Multiset.cons_swap, hslots] at hh₁
    have hna : (na, Obj.keys (([] : List (Option Ptr)) ++ stringSlots as ++ tail)) ∈
        (na, .keys (stringSlots as ++ tail)) ::ₘ
          (stringCells as (xs.map fun x => x.2.key) + rest) := by
      simp
    obtain ⟨h₂, hmove, hh₂⟩ := moveKeys_nodes hna hh₁
    rw [Multiset.cons_swap] at hh₂
    obtain ⟨h₃, hfree, hh₃⟩ := HoldsNodes.free hh₂
    rw [← stringSlots_append] at hh₃
    have harr₃ : (arr, .lists (before ++ [some l] ++ ls.map some)) ∈
        stringCells as (xs.map fun x => x.2.key) + rest := by
      simp only [List.append_assoc]
      exact Multiset.mem_add.mpr (.inr harr)
    obtain ⟨h', bs, hrun, hcount', hh'⟩ := ih _ (by simpa using hlen)
      (fun l' hl' => hs l' (List.mem_cons_of_mem _ hl')) harr₃
      (fun x hx => Multiset.mem_add.mpr (.inr (hls x (List.mem_cons_of_mem _ hx)))) hh₃
    refine ⟨h', as ++ bs, ?_, by simp [hcount, hcount'], ?_⟩
    · rw [stringSlots_length, List.length_nil] at hmove
      rw [List.length_append, List.length_append, List.length_singleton] at hrun
      simp only [List.length_cons, tableGetKeysLoop, hat, hkeys, hsize, htoNat, hmove, hfree,
        ok_bind]
      exact hrun
    · rw [← List.append_assoc, keysOf_cons, stringCells_append (by simpa using hcount)]
      convert hh' using 2
      abel

theorem tableGetKeys_table {table : TableT} (hh : HoldsTable h t table rest)
    (hc : table.Chained chains) (hs : table.size < intMax) (m : ObjMem) :
    ∃ fa as h', tableGetKeys h (some t) m = .ok (some fa, h') ∧
      as.length = (keysOf chains).length ∧
      HoldsTable h' t table ((fa, .keys (stringSlots as ++ [some none])) ::ₘ
        (stringCells as (keysOf chains) + rest)) := by
  have hsize := hc.size
  have hint : ∀ n : Int, 0 ≤ n → n ≤ table.size → IsInt (n + 1) := by
    intro n hn hle
    simp only [IsInt, intMin, intMax] at hs ⊢
    omega
  have hlists : ∀ l ∈ table.list, IsInt (l.size + 1) := by
    intro l hl
    have hle := chain_length_le hc.lists hl
    obtain ⟨i, hi, rfl⟩ := List.mem_iff_getElem.mp hl
    have hcount := (hc.lists.get hi (hc.lists.length_eq ▸ hi)).size
    simp only [List.get_eq_getElem] at hcount
    exact hint _ (by omega) (by omega)
  have hslots : (table.size + 1).toNat = (keysOf chains).length + 1 := by omega
  have hcounted : table.countLists.toNat = table.list.length := by
    have := table.counted
    omega
  obtain ⟨arr, ls, hlen, hn⟩ := hh
  have ht : load Obj.asTable h (some t) = .ok ⟨some arr, table.size, table.countLists⟩ :=
    load_cell (rest_cell hn (x := (t, .table _)) (by simp [headCells])) rfl
  have hplaced := HoldsNodes.place hn m.malloc
    (.keys (List.replicate ((keysOf chains).length + 1) none))
  generalize hp : h.place m.malloc (.keys (List.replicate ((keysOf chains).length + 1) none)) =
    placed at hplaced
  obtain ⟨fa, h₁⟩ := placed
  have harr : (arr, .lists (([] : List Ptr) ++ ls.map some)) ∈
      listCells ls table.list + (headCells t arr ls table + rest) := by
    simp [headCells]
  have hls : ∀ x ∈ ls.zip table.list, (x.1, .list x.2) ∈
      listCells ls table.list + (headCells t arr ls table + rest) := by
    intro x hx
    refine Multiset.mem_add.mpr (.inl (Multiset.mem_coe.mpr ?_))
    exact List.mem_map_of_mem (f := fun x => (x.1, Obj.list x.2)) hx
  obtain ⟨h', as, hrun, hcount, hh'⟩ := tableGetKeysLoop_nodes m [] hlen hc.lists hlists
    harr hls hplaced
  refine ⟨fa, as, h', ?_, hcount, arr, ls, hlen, ?_⟩
  · simp only [List.length_nil] at hrun
    have hone := checkInt_of_isInt (hint _ (by omega) (Int.le_refl _))
    simp only [tableGetKeys, ht, hone, hslots, hp, hcounted, hrun, ok_bind, pure_eq_ok]
  · convert hh' using 1
    simp only [List.nil_append, ← Multiset.singleton_add]
    abel

-- ---------------------------------------------------------------------------
-- table_free_keys
-- ---------------------------------------------------------------------------

theorem listFreeKeysLoop_frees {as : List Nat} {keys : List CStr} (before : List (Option Ptr))
    (hlen : as.length = keys.length)
    (hl : Ledger h ((fa, .keys (before ++ stringSlots as ++ [some none])) ::ₘ
      (stringCells as keys + rest))) (hf : as.length < fuel) :
    ∃ h', listFreeKeysLoop (some fa) fuel before.length h = .ok h' ∧
      Ledger h' ((fa, .keys (before ++ stringSlots as ++ [some none])) ::ₘ rest) ∧
      h.top ≤ h'.top := by
  induction as generalizing h before keys fuel with
  | nil =>
    obtain rfl : keys = [] := List.length_eq_zero_iff.mp hlen.symm
    obtain ⟨fuel, rfl⟩ : ∃ n, fuel = n + 1 := ⟨fuel - 1, by simp at hf; omega⟩
    have hload : load Obj.asKeys h (some fa) = .ok (before ++ stringSlots [] ++ [some none]) :=
      load_mem hl (Multiset.mem_cons_self ..) rfl
    exact ⟨h, by simp [listFreeKeysLoop, keyAt, hload], by simpa using hl, Nat.le_refl _⟩
  | cons a as ih =>
    obtain ⟨key, keys, rfl⟩ : ∃ key keys', keys = key :: keys' := by
      cases keys with
      | nil => simp at hlen
      | cons key keys => exact ⟨key, keys, rfl⟩
    obtain ⟨fuel, rfl⟩ : ∃ n, fuel = n + 1 := ⟨fuel - 1, by simp at hf; omega⟩
    have hload : load Obj.asKeys h (some fa) =
        .ok (before ++ stringSlots (a :: as) ++ [some none]) :=
      load_mem hl (Multiset.mem_cons_self ..) rfl
    rw [stringCells_cons, Multiset.cons_add, Multiset.cons_swap] at hl
    obtain ⟨h₁, hfree, hl₁, htop⟩ := hl.free
    rw [stringSlots_cons, List.append_cons before] at hl₁
    obtain ⟨h', hrun, hl', htop'⟩ := ih _ (by simpa using hlen) hl₁ (by simpa using hf)
    refine ⟨h', ?_, by simpa using hl', htop.trans htop'⟩
    rw [List.length_append, List.length_singleton] at hrun
    simp [listFreeKeysLoop, keyAt, hload, hfree, hrun]

theorem tableFreeKeys_frees {as : List Nat} {keys : List CStr} (hlen : as.length = keys.length)
    (hl : Ledger h ((fa, .keys (stringSlots as ++ [some none])) ::ₘ
      (stringCells as keys + rest))) :
    ∃ h', tableFreeKeys h (some fa) = .ok h' ∧ Ledger h' rest ∧ h.top ≤ h'.top := by
  have hload : load Obj.asKeys h (some fa) = .ok (stringSlots as ++ [some none]) :=
    load_mem hl (Multiset.mem_cons_self ..) rfl
  obtain ⟨h₁, hrun, hl₁, htop⟩ :=
    listFreeKeysLoop_frees [] hlen hl (show as.length < as.length + 2 by omega)
  obtain ⟨h₂, hfree, hl₂, htop'⟩ := hl₁.free
  refine ⟨h₂, ?_, hl₂, htop.trans htop'⟩
  simp only [List.length_nil] at hrun
  simp [tableFreeKeys, listFreeKeys, hload, hrun, hfree]

end Objects

end HashMapStorage

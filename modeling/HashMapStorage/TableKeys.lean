import HashMapStorage.TableLaws

/-!
# Enumerating the keys

`list_get_keys` collects the keys by walking the chain and `table_get_keys`
copies as many as the size of each list says. Where the chains and the
counters agree, the array is filled exactly: the keys, list by list, and the
NULL behind them.
-/

namespace HashMapStorage

open Machine

def keySlots (xs : Nodes) : List Slot := xs.map fun x => .str x.2.key

@[simp] theorem keySlots_length (xs : Nodes) : (keySlots xs).length = xs.length := by
  simp [keySlots]

def filled (done : List Slot) (n : Nat) : List Slot := done ++ List.replicate n .unset

theorem filled_set (done : List Slot) (n : Nat) (s : Slot) :
    (filled done (n + 1)).set done.length s = filled (done ++ [s]) n := by
  simp [filled, List.replicate_succ]

theorem filled_room (done : List Slot) (n : Nat) :
    done.length < (filled done (n + 1)).length := by
  simp [filled]

-- ---------------------------------------------------------------------------
-- list_get_keys
-- ---------------------------------------------------------------------------

theorem listGetKeysLoop_linked (done : List Slot) (hl : Linked nodeShape h p xs none)
    (hf : xs.length < fuel) :
    listGetKeysLoop h fuel p (filled done (xs.length + 1)) done.length =
      .ok (done ++ keySlots xs ++ [.null]) := by
  induction xs generalizing p fuel done with
  | nil =>
    cases hl
    cases fuel with
    | zero => simp at hf
    | succ fuel =>
      simp only [listGetKeysLoop, List.length_nil, filled_room, ↓reduceIte, filled_set]
      simp [filled, keySlots]
  | cons x xs ih =>
    obtain ⟨rfl, v, hc, hi, hl⟩ := hl
    have hi : v.entrada = x.2 := hi
    cases fuel with
    | zero => simp at hf
    | succ fuel =>
      have hrest := ih (done ++ [.str x.2.key]) hl (by simpa using hf)
      simp only [listGetKeysLoop, Heap.load_some hc, ok_bind, hi, List.length_cons, filled_room,
        ↓reduceIte, filled_set]
      rw [List.length_append, List.length_singleton] at hrest
      simpa [keySlots] using hrest

structure ListT.Counts (h : Heap NodeT) (list : ListT) (xs : Nodes) : Prop where
  chain : Linked nodeShape h list.head xs none
  size : list.size = xs.length

theorem listGetKeys_counts (hl : ListT.Counts h list xs) (hs : IsInt (list.size + 1)) :
    listGetKeys h list = .ok (if xs = [] then [.unset] else keySlots xs ++ [.null]) := by
  cases xs with
  | nil =>
    have hsize : list.size = 0 := hl.size
    simp [listGetKeys, hsize]
  | cons x xs =>
    have hsize : ¬ list.size = 0 := by
      rw [hl.size]
      simp
      omega
    have hslots : (list.size + 1).toNat = (x :: xs).length + 1 := by
      rw [hl.size]
      omega
    have hrun := listGetKeysLoop_linked [] hl.chain
      (Nat.lt_succ_of_le hl.chain.length_le_top)
    simp only [listGetKeys, hsize, ↓reduceIte, checkInt_of_isInt hs, ok_bind, hslots]
    simpa [filled] using hrun

-- ---------------------------------------------------------------------------
-- table_get_keys
-- ---------------------------------------------------------------------------

theorem copyKeysLoop_slots (before slots rest done : List Slot) (n : Nat) :
    copyKeysLoop (before ++ slots ++ rest) slots.length before.length
        (filled done (slots.length + n)) done.length =
      .ok (filled (done ++ slots) n, done.length + slots.length) := by
  induction slots generalizing before done with
  | nil => simp [copyKeysLoop]
  | cons s slots ih =>
    have hroom := filled_room done (slots.length + n)
    have hset := filled_set done (slots.length + n) s
    have hslot : (before ++ (s :: slots) ++ rest)[before.length]? = some s := by simp
    have hrest := ih (before ++ [s]) (done ++ [s])
    simp only [List.length_append, List.length_singleton, List.append_assoc, List.cons_append,
      Nat.add_assoc, Nat.add_comm 1] at hrest
    have hcount : slots.length + 1 + n = slots.length + n + 1 := by omega
    rw [List.length_cons, hcount, copyKeysLoop, hslot]
    simp only [hroom, ↓reduceIte, hset]
    simpa using hrest

def keysOf (chains : List Nodes) : List CStr := chains.flatten.map fun x => x.2.key

@[simp] theorem keysOf_cons (xs : Nodes) (chains : List Nodes) :
    keysOf (xs :: chains) = xs.map (fun x => x.2.key) ++ keysOf chains := by
  simp [keysOf]

theorem tableGetKeysLoop_chains (hc : List.Forall₂ (ListT.Counts h) ls chains)
    (hs : ∀ l ∈ ls, IsInt (l.size + 1)) (done : List Slot) :
    tableGetKeysLoop h ls (filled done ((keysOf chains).length + 1)) done.length =
      .ok (done ++ (keysOf chains).map .str ++ [.null]) := by
  induction hc generalizing done with
  | nil =>
    have hroom := filled_room done 0
    have hset := filled_set done 0 .null
    simp only [keysOf, List.flatten_nil, List.map_nil, List.length_nil, Nat.zero_add,
      List.append_nil] at hroom hset ⊢
    simp only [tableGetKeysLoop, hroom, ↓reduceIte, hset]
    simp [filled]
  | @cons l xs ls chains hx hc ih =>
    -- this list's array is copied by its size, whatever lies behind its keys
    have hsize : l.size.toNat = (keySlots xs).length := by
      rw [hx.size]
      simp
    obtain ⟨rest, hkeys⟩ : ∃ rest, listGetKeys h l = .ok (keySlots xs ++ rest) := by
      rw [listGetKeys_counts hx (hs l (by simp))]
      cases xs with
      | nil => exact ⟨[.unset], rfl⟩
      | cons x xs => exact ⟨[.null], by simp⟩
    have hcopy := copyKeysLoop_slots [] (keySlots xs) rest done ((keysOf chains).length + 1)
    have hrest := ih (fun l' hl' => hs l' (List.mem_cons_of_mem _ hl')) (done ++ keySlots xs)
    rw [List.length_append] at hrest
    simp only [List.nil_append, List.length_nil, keySlots_length, ← Nat.add_assoc]
      at hcopy hsize hrest
    have hcount : (keysOf (xs :: chains)).length = xs.length + (keysOf chains).length := by simp
    rw [hcount]
    simp only [tableGetKeysLoop, hkeys, ok_bind, hsize, hcopy, hrest]
    simp [keySlots]

structure TableT.Chained (table : TableT) (chains : List Nodes) : Prop where
  lists : List.Forall₂ (ListT.Counts table.nodes) table.list chains
  size : table.size = (keysOf chains).length

theorem chain_length_le (hc : List.Forall₂ (ListT.Counts h) ls chains) (hl : l ∈ ls) :
    l.size ≤ (keysOf chains).length := by
  induction hc with
  | nil => nomatch hl
  | cons hx hc ih =>
    rw [keysOf_cons, List.length_append, List.length_map]
    rcases List.mem_cons.mp hl with rfl | hl
    · have hsize := hx.size
      omega
    · have hle := ih hl
      omega

theorem tableGetKeys_chained {table : TableT} (ht : table.Chained chains)
    (hs : table.size < intMax) :
    tableGetKeys table = .ok ((keysOf chains).map .str ++ [.null]) := by
  have hsize := ht.size
  have hint : ∀ n : Int, 0 ≤ n → n ≤ table.size → IsInt (n + 1) := by
    intro n hn hle
    simp only [IsInt, intMin, intMax] at hs ⊢
    omega
  have hlists : ∀ l ∈ table.list, IsInt (l.size + 1) := by
    intro l hl
    have hle := chain_length_le ht.lists hl
    obtain ⟨xs, hx⟩ : ∃ xs, ListT.Counts table.nodes l xs := by
      obtain ⟨i, hi, rfl⟩ := List.mem_iff_getElem.mp hl
      exact ⟨_, ht.lists.get hi (ht.lists.length_eq ▸ hi)⟩
    have hcount := hx.size
    exact hint _ (by omega) (by omega)
  have hslots : (table.size + 1).toNat = (keysOf chains).length + 1 := by omega
  simp only [tableGetKeys, checkInt_of_isInt (hint _ (by omega) (Int.le_refl _)), ok_bind, hslots]
  simpa [filled] using tableGetKeysLoop_chains ht.lists hlists []

-- ---------------------------------------------------------------------------
-- The chains of a table that holds a map
-- ---------------------------------------------------------------------------

theorem chains_of_buckets
    (hb : ∀ i l, ls[i]? = some l → ∃ xs, ListT.Holds h l xs ∧ Bucket n m (j + i) xs) :
    ∃ chains : List Nodes, List.Forall₂ (ListT.Counts h) ls chains ∧
      (ls.map ListT.size).sum = (keysOf chains).length ∧
      ∀ i xs, chains[i]? = some xs → Bucket n m (j + i) xs := by
  induction ls generalizing j with
  | nil => exact ⟨[], .nil, rfl, by simp⟩
  | cons l ls ih =>
    obtain ⟨xs, hx, hbx⟩ := hb 0 l rfl
    obtain ⟨chains, hc, hsum, hbs⟩ := ih (j := j + 1)
      (fun i l' hl' => by simpa [Nat.add_assoc, Nat.add_comm 1 i] using hb (i + 1) l' hl')
    refine ⟨xs :: chains, .cons ⟨hx.chain, hx.size⟩ hc, by simp [hsum, hx.size], ?_⟩
    intro i ys hi
    cases i with
    | zero =>
      cases hi
      exact hbx
    | succ i => simpa [Nat.add_assoc, Nat.add_comm 1 i] using hbs i ys hi

theorem TableT.Maps.chains {table : TableT} (ht : table.Maps m) :
    ∃ chains : List Nodes, table.Chained chains ∧
      ∀ i xs, chains[i]? = some xs → Bucket table.countLists m i xs := by
  obtain ⟨chains, hc, hsum, hb⟩ := chains_of_buckets (j := 0) (m := m) (n := table.countLists)
    (h := table.nodes) (fun i l hl => by simpa using ht.buckets i l hl)
  exact ⟨chains, ⟨hc, ht.size.trans hsum⟩, by simpa using hb⟩

theorem keysOf_nodup (hb : ∀ i xs, chains[i]? = some xs → Bucket n m i xs) :
    (keysOf chains).Nodup := by
  rw [keysOf, List.map_flatten, List.nodup_flatten]
  constructor
  · intro keys hk
    obtain ⟨xs, hxs, rfl⟩ := List.mem_map.mp hk
    obtain ⟨i, hi⟩ := List.mem_iff_getElem?.mp hxs
    exact (hb i xs hi).distinct
  · rw [List.pairwise_iff_getElem]
    intro i j hi hj hij key hki hkj
    simp only [List.getElem_map, List.length_map, List.mem_map] at hi hj hki hkj
    obtain ⟨x, hx, rfl⟩ := hki
    obtain ⟨y, hy, hkey⟩ := hkj
    have hpi := (hb i _ (List.getElem?_eq_getElem hi)).placed x hx
    have hpj := (hb j _ (List.getElem?_eq_getElem hj)).placed y hy
    rw [hkey, hpi] at hpj
    cases hpj
    exact Nat.lt_irrefl _ hij

theorem mem_keysOf (hb : ∀ i xs, chains[i]? = some xs → Bucket n m i xs)
    (hk : ∃ i < chains.length, hash key n = .ok (i : Nat)) :
    key ∈ keysOf chains ↔ (m key).isSome := by
  obtain ⟨i, hi, hhash⟩ := hk
  have hbi := hb i _ (List.getElem?_eq_getElem hi)
  have hfind : (m key).isSome ↔ key ∈ chains[i].map fun x => x.2.key := by
    rw [hbi.agrees key hhash, Option.isSome_map, Option.isSome_iff_ne_none, Ne, findEntry_eq_none]
    simp
  rw [hfind, keysOf, List.map_flatten]
  constructor
  · intro hmem
    obtain ⟨keys, hkeys, hin⟩ := List.mem_flatten.mp hmem
    obtain ⟨xs, hxs, rfl⟩ := List.mem_map.mp hkeys
    obtain ⟨j, hj⟩ := List.mem_iff_getElem?.mp hxs
    obtain ⟨x, hx, rfl⟩ := List.mem_map.mp hin
    have hplaced := (hb j xs hj).placed x hx
    have hij : i = j := by simpa [hhash] using hplaced
    subst hij
    rw [List.getElem?_eq_getElem hi, Option.some.injEq] at hj
    exact hj ▸ List.mem_map_of_mem hx
  · intro hin
    exact List.mem_flatten_of_mem (List.mem_map_of_mem (List.getElem_mem hi)) hin

theorem TableT.Chained.length {table : TableT} (ht : table.Chained chains) :
    (chains.length : Int) = table.countLists := by
  rw [← ht.lists.length_eq]
  exact table.counted.symm

theorem tableGetKeys_maps {table : TableT} (ht : table.Maps m) (hs : table.size < intMax)
    (ha : ∀ key, (m key).isSome → Hashed table.countLists key) :
    ∃ keys : List CStr, tableGetKeys table = .ok (keys.map .str ++ [.null]) ∧ keys.Nodup ∧
      tableSize table = keys.length ∧ ∀ key, key ∈ keys ↔ (m key).isSome := by
  obtain ⟨chains, hc, hb⟩ := ht.chains
  refine ⟨keysOf chains, tableGetKeys_chained hc hs, keysOf_nodup hb, hc.size, fun key => ?_⟩
  have hindex : ∀ {i : Nat}, hash key table.countLists = .ok (i : Nat) → i < chains.length := by
    intro i hhash
    have hi := hash_lt hhash ht.positive
    have hlen := hc.length
    omega
  constructor
  · intro hk
    obtain ⟨x, hx, rfl⟩ := List.mem_map.mp hk
    obtain ⟨xs, hxs, hin⟩ := List.mem_flatten.mp hx
    obtain ⟨i, hi⟩ := List.mem_iff_getElem?.mp hxs
    have hhash := (hb i xs hi).placed x hin
    exact (mem_keysOf hb ⟨i, hindex hhash, hhash⟩).mp hk
  · intro hk
    obtain ⟨i, hhash⟩ := ha key hk
    exact (mem_keysOf hb ⟨i, hindex hhash, hhash⟩).mpr hk

end HashMapStorage

import HashMapStorage.NodeListLaws
import HashMapStorage.Objects
import Mathlib.Data.Nat.Digits.Defs
import Mathlib.Tactic.IntervalCases

/-!
# The contract of the list (`list.h`)

What `list_add`, `list_remove` and `list_get` do to a well-formed list, called
on their own. A list of one node has two forms, `tail` NULL or that node;
`list_add` and `list_remove` each produce one of them.
-/

namespace HashMapStorage

open Machine

/-- `size` counts the chain and `tail` is its last node, or NULL on a list of
one node at most. -/
structure ListT.WellFormed (h : Heap NodeT) (list : ListT) (xs : Nodes) : Prop where
  chain : Linked nodeShape h list.head xs none
  size : list.size = xs.length
  fits : IsInt list.size
  tail : list.tail = (addrs xs).getLast? ∨ (list.tail = none ∧ xs.length ≤ 1)

def DistinctKeys (xs : Nodes) : Prop := (xs.map fun x => x.2.key).Nodup

instance (xs : Nodes) : Decidable (DistinctKeys xs) := inferInstanceAs (Decidable (List.Nodup _))

theorem ListT.WellFormed.holds (hl : ListT.WellFormed h list xs) : ListT.Holds h list xs := by
  refine ⟨hl.chain, hl.size, hl.fits, fun hlen => ?_⟩
  rcases hl.tail with htail | ⟨-, hone⟩
  · exact htail
  · omega

theorem ListT.WellFormed.not_stale (hl : ListT.WellFormed h list xs) :
    staleTail nodeShape h list.head list.tail = false := by
  rw [hl.chain.staleTail_eq_false]
  rcases hl.tail with htail | ⟨hnone, -⟩
  · exact .inr (.inr htail)
  · exact .inr (.inl hnone)

theorem DistinctKeys.before (hd : DistinctKeys (ys ++ (a, e) :: zs)) :
    ∀ y ∈ ys, y.2.key ≠ e.key := by
  intro y hy hkey
  simp only [DistinctKeys, List.map_append, List.map_cons, List.nodup_append] at hd
  exact hd.2.2 y.2.key (List.mem_map_of_mem hy) e.key (by simp) hkey

theorem DistinctKeys.erase (hd : DistinctKeys (ys ++ x :: zs)) : DistinctKeys (ys ++ zs) :=
  hd.sublist ((List.Sublist.append_left (List.sublist_cons_self x zs) ys).map _)

-- ---------------------------------------------------------------------------
-- Lists laid out in a row
-- ---------------------------------------------------------------------------

def charEntry (b : UInt8) : EntryT := ⟨.ofBytes [b], ⟨1, some [b]⟩⟩

section

variable (entry : Nat → EntryT)

def rowHeap (n : Nat) : Heap NodeT where
  cell i := if i < n then some ⟨entry i, if i + 1 < n then some (i + 1) else none⟩ else none
  top := n
  unused _ hi := if_neg (Nat.not_lt.mpr hi)

def rowNodes (first n : Nat) : Nodes := (List.range' first n).map fun i => (i, entry i)

def rowList (n : Nat) : ListT :=
  ⟨if 0 < n then some 0 else none, (addrs (rowNodes entry 0 n)).getLast?, n⟩

theorem rowHeap_linked (i n : Nat) :
    Linked nodeShape (rowHeap entry (i + n)) (if i < i + n then some i else none)
      (rowNodes entry i n) none := by
  induction n generalizing i with
  | zero => simp [rowNodes, Linked]
  | succ n ih =>
    have hrest := ih (i + 1)
    have hn : i + 1 + n = i + (n + 1) := by omega
    rw [hn] at hrest
    have hi : i < i + (n + 1) := by omega
    exact ⟨if_pos hi, _, if_pos hi, rfl, hrest⟩

theorem rowList_wellFormed {n : Nat} (hn : IsInt n) :
    ListT.WellFormed (rowHeap entry n) (rowList entry n) (rowNodes entry 0 n) := by
  have hchain := rowHeap_linked entry 0 n
  rw [Nat.zero_add] at hchain
  exact ⟨hchain, by simp [rowList, rowNodes], hn, .inl rfl⟩

end

def threeHeap : Heap NodeT := rowHeap (fun i => charEntry (UInt8.ofNat (97 + i))) 3

def threeList : ListT := ⟨some 0, some 2, 3⟩

def threeNodes : Nodes := [(0, charEntry 97), (1, charEntry 98), (2, charEntry 99)]

theorem threeList_wellFormed : ListT.WellFormed threeHeap threeList threeNodes :=
  rowList_wellFormed (fun i => charEntry (UInt8.ofNat (97 + i))) (n := 3) (by decide)

-- ---------------------------------------------------------------------------
-- list_remove of a stored key
-- ---------------------------------------------------------------------------

theorem removed_wellFormed (hl : ListT.WellFormed h list (ys ++ (a, e) :: zs))
    (hl' : ListT.Holds h' list' (ys ++ zs)) (hne : ys ++ zs ≠ [])
    (ht : list'.tail = if ys = [] then list.tail else (addrs (ys ++ zs)).getLast?) :
    ListT.WellFormed h' list' (ys ++ zs) := by
  refine ⟨hl'.chain, hl'.size, hl'.fits, .inl ?_⟩
  cases ys with
  | cons y ys => simpa using ht
  | nil =>
    cases zs with
    | nil => exact absurd rfl hne
    | cons z zs =>
      rw [ht, if_pos rfl, hl.holds.tail (by simp)]
      simp [List.getLast?_cons]

/-- Removing a stored key takes out that entry and nothing else, wherever it is
in the list. -/
theorem listRemove_stored (hl : ListT.WellFormed h list (ys ++ (a, e) :: zs))
    (hd : DistinctKeys (ys ++ (a, e) :: zs)) :
    ∃ h' list', listRemove h list (some e.key) = .ok (0, h', list') ∧
      Linked nodeShape h' list'.head (ys ++ zs) none ∧ list'.size = list.size - 1 ∧
      (∀ c ∉ addrs (ys ++ (a, e) :: zs), h'.cell c = h.cell c) ∧
      (ys ++ zs ≠ [] → ListT.WellFormed h' list' (ys ++ zs) ∧ DistinctKeys (ys ++ zs)) := by
  obtain ⟨h', list', hremove, hl', htail, hframe⟩ := listRemove_holds hl.holds rfl hd.before
  refine ⟨h', list', hremove, hl'.chain, ?_, hframe, fun hne => ?_⟩
  · rw [hl'.size, hl.size]
    simp
    omega
  · exact ⟨removed_wellFormed hl hl' hne htail, hd.erase⟩

theorem listRemove_stored_three :
    (∃ h' list', listRemove threeHeap threeList (some (.ofBytes [98])) = .ok (0, h', list') ∧
      list'.size = 2 ∧ ListT.WellFormed h' list' [(0, charEntry 97), (2, charEntry 99)]) ∧
    ∃ h' list', listRemove threeHeap threeList (some (.ofBytes [99])) = .ok (0, h', list') ∧
      list'.size = 2 ∧ ListT.WellFormed h' list' [(0, charEntry 97), (1, charEntry 98)] := by
  have hl := threeList_wellFormed
  have hmiddle : threeNodes = [(0, charEntry 97)] ++ (1, charEntry 98) :: [(2, charEntry 99)] := rfl
  have hlast : threeNodes = [(0, charEntry 97), (1, charEntry 98)] ++ (2, charEntry 99) :: [] := rfl
  constructor
  · rw [hmiddle] at hl
    obtain ⟨h', list', hremove, -, hsize, -, hrest⟩ := listRemove_stored hl (by decide)
    exact ⟨h', list', hremove, hsize, (hrest (by decide)).1⟩
  · rw [hlast] at hl
    obtain ⟨h', list', hremove, -, hsize, -, hrest⟩ := listRemove_stored hl (by decide)
    exact ⟨h', list', hremove, hsize, (hrest (by decide)).1⟩

-- ---------------------------------------------------------------------------
-- list_remove of an absent key
-- ---------------------------------------------------------------------------

theorem listRemoveLoop_absent (hl : Linked nodeShape h p (xs ++ (b, f) :: z :: zs) none)
    (ht : list.tail = (addrs (xs ++ (b, f) :: z :: zs)).getLast?)
    (hz : ∀ x ∈ z :: zs, x.2.key ≠ key) (hf : zs.length < fuel) :
    listRemoveLoop h list key fuel (some b) = .ok (-1, h, list) := by
  induction zs generalizing xs b f z fuel with
  | nil =>
    -- `z` is the last node, where the loop stops
    obtain ⟨fuel, rfl⟩ := Nat.exists_eq_add_one_of_ne_zero (Nat.ne_zero_of_lt hf)
    obtain ⟨node, next, hb, -, hn, hc, hd⟩ := linked_next hl
    have htail : list.tail = some z.1 := by simp [ht, addrs]
    have hkey : ¬ z.2.key = key := hz z (by simp)
    simp [listRemoveLoop, Heap.load_some hb, hn, Heap.load_some hc, hd, htail, hkey]
  | cons y zs ih =>
    obtain ⟨fuel, rfl⟩ := Nat.exists_eq_add_one_of_ne_zero (Nat.ne_zero_of_lt hf)
    have hl' : Linked nodeShape h p ((xs ++ [(b, f)]) ++ z :: y :: zs) none := by simpa using hl
    rw [listRemoveLoop_next hl ht (by simp) (hz z (by simp))]
    exact ih hl' (by simpa using ht) (fun x hx => hz x (List.mem_cons_of_mem _ hx))
      (by simpa using hf)

theorem listRemove_absent_one (hl : Linked nodeShape h list.head [x] none)
    (hx : x.2.key ≠ key) : listRemove h list (some key) = .error .nullPointer := by
  obtain ⟨hp, node, hc, hi, hn⟩ := hl
  have hi : node.entrada = x.2 := hi
  have hn : node.proximo = none := hn
  have hnull : h.load none = .error .nullPointer := rfl
  cases htail : list.tail with
  | none => simp [listRemove, hp, Heap.load_some hc, hi, hx, listRemoveLoop, hn, htail, hnull]
  | some q => simp [listRemove, hp, Heap.load_some hc, hi, hx, listRemoveLoop, hn, htail, hnull]

theorem listRemove_absent_others (hl : ListT.WellFormed h list xs)
    (hk : findEntry key xs = none) (hone : xs.length ≠ 1) :
    listRemove h list (some key) = .ok (-1, h, list) := by
  have hkeys := findEntry_eq_none.mp hk
  match xs, hl with
  | [], hl =>
    have hhead : list.head = none := hl.chain
    simp [listRemove, hhead]
  | [x], _ => simp at hone
  | x :: y :: zs, hl =>
    have hfuel : zs.length < h.top + 1 := by
      have := hl.chain.length_le_top
      simp at this
      omega
    have hchain : Linked nodeShape h list.head ([] ++ (x.1, x.2) :: y :: zs) none := hl.chain
    have hloop := listRemoveLoop_absent hchain (hl.holds.tail (by simp))
      (fun z hz => hkeys z (List.mem_cons_of_mem _ hz)) hfuel
    obtain ⟨hp, node, hc, hi, -⟩ := hl.chain
    have hi : node.entrada = x.2 := hi
    have hx : ¬ x.2.key = key := hkeys x (by simp)
    simp [listRemove, hp, Heap.load_some hc, hi, hx, hloop]

/-- Removing an absent key is refused, with nothing changed, exactly if the list
does not have exactly one node. -/
theorem listRemove_absent_iff (hl : ListT.WellFormed h list xs) (hk : findEntry key xs = none) :
    listRemove h list (some key) = .ok (-1, h, list) ↔ xs.length ≠ 1 := by
  constructor
  · intro hrun hone
    obtain ⟨x, rfl⟩ := List.length_eq_one_iff.mp hone
    rw [listRemove_absent_one hl.chain (findEntry_eq_none.mp hk x (by simp))] at hrun
    cases hrun
  · exact listRemove_absent_others hl hk

theorem listRemove_absent_iff_three :
    listRemove threeHeap threeList (some (.ofBytes [100])) = .ok (-1, threeHeap, threeList) :=
  (listRemove_absent_iff threeList_wellFormed (by decide)).mpr (by decide)

def singleNode (b : UInt8) : Heap NodeT := Heap.empty.set 0 (some ⟨charEntry b, none⟩)

def singleList (tail : Ptr) : ListT := ⟨some 0, tail, 1⟩

theorem singleNode_linked (b : UInt8) :
    Linked nodeShape (singleNode b) (some 0) [(0, charEntry b)] none :=
  ⟨rfl, _, Heap.set_cell .., rfl, rfl⟩

theorem singleList_wellFormed (b : UInt8) (ht : tail = none ∨ tail = some 0) :
    ListT.WellFormed (singleNode b) (singleList tail) [(0, charEntry b)] := by
  refine ⟨singleNode_linked b, rfl, (by decide : IsInt 1), ?_⟩
  rcases ht with rfl | rfl
  · exact .inr ⟨rfl, Nat.le_refl _⟩
  · exact .inl rfl

/-- "b" on a list that holds "a" only. -/
theorem listRemove_absent_fails :
    ListT.WellFormed (singleNode 97) (singleList none) [(0, charEntry 97)] ∧
      findEntry (.ofBytes [98]) [(0, charEntry 97)] = none ∧
      listRemove (singleNode 97) (singleList none) (some (.ofBytes [98])) =
        .error .nullPointer := by
  refine ⟨singleList_wellFormed 97 (.inl rfl), by decide, ?_⟩
  exact listRemove_absent_one (singleNode_linked 97) (by decide)

-- ---------------------------------------------------------------------------
-- list_add
-- ---------------------------------------------------------------------------

def addEntry (entry : EntryT) (new : Nat) (xs : Nodes) : Nodes :=
  if findEntry entry.key xs = none then xs ++ [(new, entry)]
  else xs.map fun x => if x.2.key = entry.key then (x.1, entry) else x

theorem addEntry_absent (hk : findEntry entry.key xs = none) (new : Nat) :
    addEntry entry new xs = xs ++ [(new, entry)] := if_pos hk

theorem addEntry_present (hd : DistinctKeys (ys ++ (a, e) :: zs)) (he : e.key = entry.key)
    (new : Nat) : addEntry entry new (ys ++ (a, e) :: zs) = ys ++ (a, entry) :: zs := by
  have hfound : findEntry entry.key (ys ++ (a, e) :: zs) ≠ none := by
    rw [Ne, findEntry_eq_none]
    exact fun hall => hall (a, e) (by simp) he
  have hkeep : ∀ xs : Nodes, (∀ x ∈ xs, x.2.key ≠ entry.key) →
      xs.map (fun x => if x.2.key = entry.key then (x.1, entry) else x) = xs := by
    intro xs hx
    exact (List.map_congr_left fun x hm => if_neg (hx x hm)).trans (List.map_id xs)
  have hzs : ∀ z ∈ zs, z.2.key ≠ entry.key := by
    intro z hz hkey
    simp only [DistinctKeys, List.map_append, List.map_cons, List.nodup_append,
      List.nodup_cons] at hd
    exact hd.2.1.1 (List.mem_map.mpr ⟨z, hz, hkey.trans he.symm⟩)
  rw [addEntry, if_neg hfound, List.map_append, List.map_cons, if_pos he,
    hkeep ys (fun y hy => he ▸ hd.before y hy), hkeep zs hzs]

theorem findEntry_addEntry (hd : DistinctKeys xs) (entry : EntryT) (new : Nat) (key : CStr) :
    findEntry key (addEntry entry new xs) =
      if key = entry.key then some entry else findEntry key xs := by
  cases hk : findEntry entry.key xs with
  | none =>
    rw [addEntry_absent hk, findEntry_append]
    by_cases hkey : key = entry.key
    · simp [hkey, hk]
    · simp [hkey, Ne.symm hkey]
  | some e =>
    obtain ⟨ys, a, zs, rfl, he, hy⟩ := findEntry_split hk
    rw [addEntry_present hd he]
    simp only [findEntry_append, findEntry_cons, he, eq_comm (a := entry.key)]
    by_cases hkey : key = entry.key
    · have hnone : findEntry key ys = none := hkey ▸ findEntry_eq_none.mpr hy
      simp [hkey, hkey ▸ hnone]
    · simp [hkey]

theorem DistinctKeys.addEntry (hd : DistinctKeys xs) (entry : EntryT) (new : Nat) :
    DistinctKeys (addEntry entry new xs) := by
  cases hk : findEntry entry.key xs with
  | none =>
    rw [addEntry_absent hk, DistinctKeys, List.map_append, List.nodup_append]
    refine ⟨hd, by simp, ?_⟩
    intro k hk' l hl
    obtain ⟨x, hx, rfl⟩ := List.mem_map.mp hk'
    have hl : l = entry.key := by simpa using hl
    exact hl ▸ findEntry_eq_none.mp hk x hx
  | some e =>
    obtain ⟨ys, a, zs, rfl, he, -⟩ := findEntry_split hk
    rw [addEntry_present hd he, DistinctKeys]
    simpa [DistinctKeys, he] using hd

theorem listReplaceLoop_linked (hl : Linked nodeShape h p (ys ++ (a, e) :: zs) none)
    (he : e.key = entry.key) (hy : ∀ y ∈ ys, y.2.key ≠ entry.key) (hf : ys.length < fuel) :
    ∃ node, h.cell a = some node ∧ listReplaceLoop h entry fuel p =
      .ok (0, h.set a (some { node with entrada := entry })) := by
  induction ys generalizing p fuel with
  | nil =>
    obtain ⟨fuel, rfl⟩ := Nat.exists_eq_add_one_of_ne_zero (Nat.ne_zero_of_lt hf)
    obtain ⟨rfl, node, hc, hi, -⟩ := hl
    have hi : node.entrada = e := hi
    refine ⟨node, hc, ?_⟩
    simp [listReplaceLoop, Heap.load_some hc, hi, he, Heap.store_some hc]
  | cons y ys ih =>
    obtain ⟨fuel, rfl⟩ := Nat.exists_eq_add_one_of_ne_zero (Nat.ne_zero_of_lt hf)
    obtain ⟨rfl, next, hc, hi, hl⟩ := hl
    have hi : next.entrada = y.2 := hi
    obtain ⟨node, hn, hrun⟩ := ih hl (fun x hx => hy x (List.mem_cons_of_mem _ hx))
      (by simpa using hf)
    refine ⟨node, hn, ?_⟩
    simpa [listReplaceLoop, Heap.load_some hc, hi, hy y (by simp)] using hrun

theorem listAdd_absent (entry : EntryT) (hl : ListT.WellFormed h list xs)
    (hk : findEntry entry.key xs = none) (hs : list.size < intMax) (m : Malloc NodeT) :
    ∃ h' list', listAdd h list entry m = .ok (0, h', list') ∧
      ListT.WellFormed h' list' (xs ++ [(m.addr h, entry)]) ∧ list'.size = list.size + 1 := by
  obtain ⟨h', head, hadd, hchain, -⟩ := listAdd_links entry hl.holds hk hl.not_stale m
  have hfits : IsInt (list.size + 1) := by
    have hlow := hl.fits.1
    exact ⟨by omega, by omega⟩
  rw [checkInt_of_isInt hfits, ok_bind] at hadd
  refine ⟨h', _, hadd, ⟨hchain, by simp [hl.size], hfits, ?_⟩, rfl⟩
  cases xs with
  | nil =>
    have hnone : list.tail = none := by simpa using hl.tail
    exact .inr ⟨hnone, Nat.le_refl _⟩
  | cons x xs => exact .inl (by simp [addrs, List.getLast?_cons])

theorem listAdd_present (hl : ListT.WellFormed h list (ys ++ (a, e) :: zs))
    (hd : DistinctKeys (ys ++ (a, e) :: zs)) (he : e.key = entry.key) (m : Malloc NodeT) :
    ∃ h', listAdd h list entry m = .ok (0, h', list) ∧
      ListT.WellFormed h' list (ys ++ (a, entry) :: zs) := by
  have hy : ∀ y ∈ ys, y.2.key ≠ entry.key := fun y hm => he ▸ hd.before y hm
  have hfuel : ys.length < h.top + 1 := by
    have := hl.chain.length_le_top
    simp at this
    omega
  obtain ⟨node, hc, hrun⟩ := listReplaceLoop_linked hl.chain he hy hfuel
  have hfound : findEntry entry.key (ys ++ (a, e) :: zs) = some e := by
    rw [findEntry_append, findEntry_eq_none.mpr hy]
    simp [he]
  have hget := listGet_holds hl.holds entry.key
  rw [hfound] at hget
  have hna : a ∉ addrs (ys ++ zs) := by
    have hnd := hl.chain.nodup
    simp only [addrs_append, addrs_cons, List.nodup_append, List.nodup_cons, List.mem_append,
      List.mem_cons] at hnd ⊢
    grind
  refine ⟨h.set a (some { node with entrada := entry }), ?_, ?_⟩
  · simp only [listAdd, hget, ok_bind, hrun]
    rfl
  · have hchain := hl.chain.replace (w := { node with entrada := entry }) hna hc rfl
    refine ⟨hchain, by simpa using hl.size, hl.fits, ?_⟩
    simpa [addrs] using hl.tail

/-- What `list_add` returns and leaves: the chain has the entry in place of the
one with its key or at the end, and `list_get` finds it and what it found
before. -/
structure ListT.Added (h : Heap NodeT) (list : ListT) (xs : Nodes) (entry : EntryT) (new : Nat)
    (h' : Heap NodeT) (list' : ListT) : Prop where
  wellFormed : ListT.WellFormed h' list' (addEntry entry new xs)
  distinct : DistinctKeys (addEntry entry new xs)
  size : list'.size = if findEntry entry.key xs = none then list.size + 1 else list.size
  get : listGet h' list' (some entry.key) = .ok (some entry)
  others : ∀ key ≠ entry.key, listGet h' list' (some key) = listGet h list (some key)

theorem added_of_wellFormed (hl : ListT.WellFormed h list xs) (hd : DistinctKeys xs)
    (hl' : ListT.WellFormed h' list' (addEntry entry new xs))
    (hs : list'.size = if findEntry entry.key xs = none then list.size + 1 else list.size) :
    ListT.Added h list xs entry new h' list' := by
  refine ⟨hl', hd.addEntry entry new, hs, ?_, fun key hkey => ?_⟩
  · rw [listGet_holds hl'.holds, findEntry_addEntry hd, if_pos rfl]
  · rw [listGet_holds hl'.holds, listGet_holds hl.holds, findEntry_addEntry hd, if_neg hkey]

/-- Adding to a well-formed list replaces in place or appends, where a new key
does not come on top of `INT_MAX` others. -/
theorem listAdd_contract (entry : EntryT) (hl : ListT.WellFormed h list xs)
    (hd : DistinctKeys xs) (hs : findEntry entry.key xs = none → list.size < intMax)
    (m : Malloc NodeT) :
    ∃ h' list', listAdd h list entry m = .ok (0, h', list') ∧
      ListT.Added h list xs entry (m.addr h) h' list' := by
  cases hk : findEntry entry.key xs with
  | none =>
    obtain ⟨h', list', hadd, hl', hsize⟩ := listAdd_absent entry hl hk (hs hk) m
    rw [← addEntry_absent hk] at hl'
    exact ⟨h', list', hadd, added_of_wellFormed hl hd hl' (by rw [if_pos hk, hsize])⟩
  | some e =>
    obtain ⟨ys, a, zs, rfl, he, -⟩ := findEntry_split hk
    obtain ⟨h', hadd, hl'⟩ := listAdd_present hl hd he m
    rw [← addEntry_present hd he (m.addr h)] at hl'
    exact ⟨h', list, hadd, added_of_wellFormed hl hd hl' (by simp [hk])⟩

theorem listAdd_contract_three :
    (∃ h' list', listAdd threeHeap threeList ⟨.ofBytes [98], ⟨1, some [0]⟩⟩
        (mallocTop ⟨charEntry 0, none⟩) = .ok (0, h', list') ∧
      ListT.WellFormed h' list'
        [(0, charEntry 97), (1, ⟨.ofBytes [98], ⟨1, some [0]⟩⟩), (2, charEntry 99)]) ∧
    ∃ h' list', listAdd threeHeap threeList (charEntry 100) (mallocTop ⟨charEntry 0, none⟩) =
        .ok (0, h', list') ∧
      list'.size = 4 ∧ listGet h' list' (some (.ofBytes [100])) = .ok (some (charEntry 100)) := by
  have hl := threeList_wellFormed
  constructor
  · obtain ⟨h', list', hadd, hadded⟩ := listAdd_contract ⟨.ofBytes [98], ⟨1, some [0]⟩⟩ hl
      (by decide) (fun _ => (by decide : (3 : Int) < intMax)) (mallocTop ⟨charEntry 0, none⟩)
    exact ⟨h', list', hadd, hadded.wellFormed⟩
  · obtain ⟨h', list', hadd, hadded⟩ := listAdd_contract (charEntry 100) hl (by decide)
      (fun _ => (by decide : (3 : Int) < intMax)) (mallocTop ⟨charEntry 0, none⟩)
    exact ⟨h', list', hadd, hadded.size, hadded.get⟩

theorem listAdd_full (entry : EntryT) (hl : ListT.WellFormed h list xs)
    (hk : findEntry entry.key xs = none) (hs : list.size = intMax) (m : Malloc NodeT) :
    listAdd h list entry m = .error .overflow := by
  obtain ⟨h', head, hadd, -, -⟩ := listAdd_links entry hl.holds hk hl.not_stale m
  rw [hadd, hs]
  rfl

/-- The decimal numerals from "1" on, last digit first. -/
def numeralEntry (i : Nat) : EntryT :=
  ⟨⟨(Nat.digits 10 (i + 1)).map fun d => 48 + .ofNat d, by
    intro hz
    obtain ⟨d, hd, hz⟩ := List.mem_map.mp hz
    have hlt := Nat.digits_lt_base (by decide) hd
    interval_cases d <;> nomatch hz⟩, ⟨1, some [0]⟩⟩

theorem numeralEntry_digits (i : Nat) :
    (numeralEntry i).key.bytes.map (fun b => (b - 48).toNat) = Nat.digits 10 (i + 1) := by
  rw [numeralEntry, List.map_map]
  refine (List.map_congr_left fun d hd => ?_).trans (List.map_id _)
  have hlt := Nat.digits_lt_base (by decide) hd
  interval_cases d <;> rfl

theorem numerals_distinct (first n : Nat) : DistinctKeys (rowNodes numeralEntry first n) := by
  rw [DistinctKeys, rowNodes, List.map_map]
  refine (List.nodup_range').map fun j k hjk => ?_
  have hkeys : (numeralEntry j).key = (numeralEntry k).key := hjk
  have hdigits : Nat.digits 10 (j + 1) = Nat.digits 10 (k + 1) := by
    rw [← numeralEntry_digits, ← numeralEntry_digits, hkeys]
  exact Nat.succ_injective (Nat.digits_inj_iff.mp hdigits)

theorem numerals_absent (first n : Nat) :
    findEntry (.ofBytes [98]) (rowNodes numeralEntry first n) = none := by
  refine findEntry_eq_none.mpr fun x hx hkey => ?_
  obtain ⟨i, -, rfl⟩ := List.mem_map.mp hx
  have hkey : (numeralEntry i).key = .ofBytes [98] := hkey
  have hdigits := numeralEntry_digits i
  rw [hkey] at hdigits
  have hlt := Nat.digits_lt_base (b := 10) (m := i + 1) (d := 50) (by decide)
    (by rw [← hdigits]; decide)
  omega

/-- The list at 0 holds the entry at 2, whose key, at 3, is that of the entry at 6, too. -/
def sharedKey : Heap Obj :=
  (((((((((Heap.empty.set 0 (some (.list ⟨some 1, none, 1⟩))).set 1
    (some (.node ⟨some 2, none⟩))).set 2 (some (.entry ⟨some 3, some 4⟩))).set 3
    (some (.str (.ofBytes [97])))).set 4 (some (.data ⟨1, some 5⟩))).set 5
    (some (.bytes [98]))).set 6 (some (.entry ⟨some 3, some 7⟩))).set 7
    (some (.data ⟨1, some 8⟩))).set 8 (some (.bytes [99]))).set 9 (some (.str (.ofBytes [97])))

/-- "b" on top of `INT_MAX` other keys; and an entry for "a" with the very string of
the entry it replaces, which is released. -/
theorem listAdd_fails :
    (∃ n : Nat, (n : Int) = intMax ∧
      ListT.WellFormed (rowHeap numeralEntry n) (rowList numeralEntry n)
        (rowNodes numeralEntry 0 n) ∧
      DistinctKeys (rowNodes numeralEntry 0 n) ∧
      findEntry (.ofBytes [98]) (rowNodes numeralEntry 0 n) = none ∧
      ∀ m, listAdd (rowHeap numeralEntry n) (rowList numeralEntry n) (charEntry 98) m =
        .error .overflow) ∧
    ∀ m, ∃ h', Objects.listAdd sharedKey (some 0) (some 6) m = .ok (0, h') ∧
      Objects.listGet h' (some 0) (some 9) = .error .dangling := by
  constructor
  · obtain ⟨n, hn⟩ : ∃ n : Nat, (n : Int) = intMax := ⟨2147483647, rfl⟩
    have hl := rowList_wellFormed numeralEntry (n := n) (hn ▸ by decide)
    have hk := numerals_absent 0 n
    exact ⟨n, hn, hl, numerals_distinct 0 n, hk, listAdd_full (charEntry 98) hl hk hn⟩
  · exact fun m => ⟨_, rfl, rfl⟩

end HashMapStorage

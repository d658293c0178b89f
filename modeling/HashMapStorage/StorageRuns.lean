import HashMapStorage.Storage

/-!
# Whole runs of a table and its caller

In every run the objects of the table stay the table's and those of its caller
the caller's: nothing is followed or released that is not allocated, each copy
holds its bytes until the caller destroys it, and once the table is destroyed
only the copies and what leaked are left of it.
-/

namespace HashMapStorage

open Machine

namespace Objects

variable {h h' : Heap Obj} {rest own : Cells Obj} {table : TableT}

-- ---------------------------------------------------------------------------
-- The caller's memory
-- ---------------------------------------------------------------------------

theorem HoldsTable.place (hh : HoldsTable h t table rest) (m : Malloc Obj) (o : Obj) :
    HoldsTable (h.place m o).2 t table (((h.place m o).1, o) ::ₘ rest) := by
  obtain ⟨s, hl, hback⟩ := HoldsTable.beside hh
  obtain ⟨hl', htop⟩ := hl.place m o
  exact hback (by rwa [Multiset.add_cons]) htop

theorem HoldsTable.free (hh : HoldsTable h t table ((a, o) ::ₘ rest)) :
    ∃ h', h.free (some a) = .ok h' ∧ HoldsTable h' t table rest := by
  obtain ⟨s, hl, hback⟩ := HoldsTable.beside hh
  rw [Multiset.add_cons] at hl
  obtain ⟨h', hfree, hl', htop⟩ := hl.free
  exact ⟨h', hfree, hback hl' htop⟩

theorem HoldsTable.destroyData (hh : HoldsTable h t table (own + rest)) (hd : DataAt a d own) :
    ∃ h', dataDestroy h (some a) = .ok h' ∧ HoldsTable h' t table rest := by
  obtain ⟨s, hl, hback⟩ := HoldsTable.beside hh
  rw [add_left_comm] at hl
  obtain ⟨h', hdestroy, hl', htop⟩ := dataDestroy_frees hd hl
  exact ⟨h', hdestroy, hback hl' htop⟩

theorem makeData_table (hh : HoldsTable h t table rest) (value : DataT) (m : ObjMem) :
    ∃ own, DataAt (makeData h value m).1 value own ∧
      HoldsTable (makeData h value m).2 t table (own + rest) := by
  obtain ⟨n, data⟩ := value
  cases data with
  | none =>
    refine ⟨_, .null n, ?_⟩
    rw [Multiset.singleton_add]
    exact HoldsTable.place hh m.malloc (.data ⟨n, none⟩)
  | some bytes =>
    have hblock := HoldsTable.place hh m.malloc (.bytes bytes)
    obtain ⟨block, hp⟩ : ∃ block, (h.place m.malloc (.bytes bytes)).1 = block := ⟨_, rfl⟩
    rw [hp] at hblock
    have hdata := HoldsTable.place hblock m.malloc (.data ⟨n, some block⟩)
    refine ⟨_, .block n block bytes, ?_⟩
    rw [Multiset.cons_add, Multiset.singleton_add]
    exact hp ▸ hdata

theorem readData_data (hd : DataAt a d own) (hw : Within h own) :
    readData h (some a) = .ok (some d) := by
  cases hd with
  | null n =>
    have hdata : load Obj.asData h (some a) = .ok ⟨n, none⟩ :=
      load_cell (hw (a, .data ⟨n, none⟩) (by simp)) rfl
    simp [readData, hdata]
  | block n b bytes =>
    have hdata : load Obj.asData h (some a) = .ok ⟨n, some b⟩ :=
      load_cell (hw (a, .data ⟨n, some b⟩) (by simp)) rfl
    have hbytes : load Obj.asBytes h (some b) = .ok bytes :=
      load_cell (hw (b, .bytes bytes) (by simp)) rfl
    simp [readData, hdata, hbytes]

theorem readKeys_strings {as : List Nat} {keys : List CStr} (before : List (Option Ptr))
    (hlen : as.length = keys.length)
    (harr : h.cell fa = some (.keys (before ++ stringSlots as ++ [some none])))
    (hw : Within h (stringCells as keys)) (hf : as.length < fuel) :
    readKeys h (some fa) fuel before.length = .ok keys := by
  have hload : load Obj.asKeys h (some fa) = .ok (before ++ stringSlots as ++ [some none]) :=
    load_cell harr rfl
  induction as generalizing before keys fuel with
  | nil =>
    obtain rfl : keys = [] := List.length_eq_zero_iff.mp hlen.symm
    obtain ⟨fuel, rfl⟩ : ∃ n, fuel = n + 1 := ⟨fuel - 1, by simp at hf; omega⟩
    simp [readKeys, keyAt, hload]
  | cons a as ih =>
    obtain ⟨key, keys, rfl⟩ : ∃ key keys', keys = key :: keys' := by
      cases keys with
      | nil => simp at hlen
      | cons key keys => exact ⟨key, keys, rfl⟩
    obtain ⟨fuel, rfl⟩ : ∃ n, fuel = n + 1 := ⟨fuel - 1, by simp at hf; omega⟩
    have hkey : load Obj.asStr h (some a) = .ok key := load_cell (hw (a, .str key) (by simp)) rfl
    have hstep : before ++ stringSlots (a :: as) = before ++ [some (some a)] ++ stringSlots as := by
      simp
    rw [hstep] at harr hload
    have hrest := ih (before ++ [some (some a)]) (by simpa using hlen) harr
      (fun x hx => hw x (Multiset.mem_cons_of_mem hx)) (by simpa using hf) hload
    rw [List.length_append, List.length_singleton] at hrest
    simp [readKeys, keyAt, hload, hkey, hrest]

-- ---------------------------------------------------------------------------
-- Stale tails
-- ---------------------------------------------------------------------------

theorem linked_objects {view : Heap NodeT} {xs : Nodes} (hh : HoldsNodes h view rest)
    (hc : Linked nodeShape view p xs none) :
    ∃ ys, addrs ys = addrs xs ∧ Linked objShape h p ys none := by
  induction xs generalizing p with
  | nil => exact ⟨[], rfl, hc⟩
  | cons x xs ih =>
    obtain ⟨rfl, v, hv, -, hc⟩ := hc
    obtain ⟨ys, hys, hlinked⟩ := ih hc
    obtain ⟨e, s, t, -, -, hl⟩ := focus_node hh hv
    refine ⟨(x.1, some e) :: ys, by simp [hys], rfl, .node ⟨some e, v.proximo⟩, ?_, rfl, hlinked⟩
    exact hl.get (Multiset.mem_cons_self ..)

theorem staleTail_objects {view : Heap NodeT} {xs : Nodes} (hh : HoldsNodes h view rest)
    (hc : Linked nodeShape view p xs none) (tail : Ptr) :
    staleTail objShape h p tail = staleTail nodeShape view p tail := by
  obtain ⟨ys, hys, hlinked⟩ := linked_objects hh hc
  have hnil : ys = [] ↔ xs = [] := by
    rw [← List.length_eq_zero_iff, ← List.length_eq_zero_iff]
    have hlen := congrArg List.length hys
    simp only [addrs, List.length_map] at hlen
    omega
  rw [Bool.eq_iff_iff, ← not_iff_not, Bool.not_eq_true, Bool.not_eq_true,
    hlinked.staleTail_eq_false, hc.staleTail_eq_false, hys, hnil]

theorem holdsKey_nodes {view : Heap NodeT} {xs : Nodes} (hh : HoldsNodes h view rest)
    (hc : Linked nodeShape view p xs none) (hf : xs.length < fuel) :
    holdsKey h key fuel p = .ok (findEntry key xs).isSome := by
  induction xs generalizing p fuel with
  | nil =>
    cases hc
    obtain ⟨fuel, rfl⟩ : ∃ n, fuel = n + 1 := ⟨fuel - 1, by simp at hf; omega⟩
    rfl
  | cons x xs ih =>
    obtain ⟨rfl, v, hv, hi, hc⟩ := hc
    obtain ⟨fuel, rfl⟩ : ∃ n, fuel = n + 1 := ⟨fuel - 1, by simp at hf; omega⟩
    obtain ⟨e, s, hnode, he, hw⟩ := load_node hh hv
    have hi : v.entrada = x.2 := hi
    have hkey := entryKey_within he hw
    rw [hi] at hkey
    simp only [holdsKey, hnode, hkey, ok_bind, findEntry_cons, eq_comm (a := key)]
    split
    · rfl
    · exact ih hc (by simpa using hf)

theorem appendable_objects (hh : HoldsTable h t table rest) (ht : table.Maps m)
    (hk : Hashed table.countLists key) :
    appendable h (some t) key = HashMapStorage.appendable table key := by
  obtain ⟨i, l, xs, hhash, -, hat, hx, -⟩ := ht.bucket hk
  obtain ⟨arr, htable⟩ := load_table hh
  obtain ⟨p, others, hat', hnodes, -⟩ := focus_list hh htable hat
  have hlist : load Obj.asList h (some p) = .ok l :=
    load_cell (rest_cell hnodes (Multiset.mem_cons_self ..)) rfl
  obtain ⟨-, -, -, htop⟩ := id hnodes
  have hfound : holdsKey h key (h.top + 1) l.head = .ok (findEntry key xs).isSome :=
    holdsKey_nodes hnodes hx.chain (Nat.lt_succ_of_le (hx.chain.length_le_top.trans htop))
  have hget := listGet_holds hx key
  simp only [appendable, HashMapStorage.appendable, htable, hhash, hat, hat', hlist, hfound, hget,
    ok_bind, pure_eq_ok]
  cases findEntry key xs with
  | none => simp [staleTail_objects hnodes hx.chain]
  | some e => rfl

end Objects

-- ---------------------------------------------------------------------------
-- One call
-- ---------------------------------------------------------------------------

inductive CopiesAt : List Ptr → List (List UInt8) → Cells Obj → Prop
  | nil : CopiesAt [] [] 0
  | cons (hd : DataAt a d s) (hv : d.Valid) (hc : CopiesAt ps bs t) :
    CopiesAt (some a :: ps) (d.bytes :: bs) (s + t)

theorem CopiesAt.length_eq (hc : CopiesAt ps bs s) : ps.length = bs.length := by
  induction hc with
  | nil => rfl
  | cons _ _ _ ih => simp [ih]

theorem CopiesAt.focus (hc : CopiesAt ps bs s) (hi : ps[i]? = some p) :
    ∃ a d own others, p = some a ∧ DataAt a d own ∧ d.Valid ∧ bs[i]? = some d.bytes ∧
      s = own + others ∧ CopiesAt (ps.eraseIdx i) (bs.eraseIdx i) others := by
  induction hc generalizing i with
  | nil => simp at hi
  | @cons a d s ps bs t hd hv hc ih =>
    cases i with
    | zero =>
      cases hi
      exact ⟨a, d, s, t, rfl, hd, hv, rfl, rfl, hc⟩
    | succ i =>
      obtain ⟨b, e, own, others, hp, he, hve, hb, rfl, hrest⟩ := ih (by simpa using hi)
      refine ⟨b, e, own, s + others, hp, he, hve, by simpa using hb, add_left_comm .., ?_⟩
      exact .cons hd hv hrest

theorem LostAt.append (hl : LostAt losses s) (hl' : LostAt losses' s') :
    LostAt (losses ++ losses') (s + s') := by
  induction hl with
  | nil => simpa using hl'
  | bytes b hb _ ih =>
    rw [Multiset.cons_add]
    exact .bytes b hb ih
  | key k _ ih =>
    rw [Multiset.cons_add]
    exact .key k ih

namespace Storage

open Objects

/-- The storage holds what its caller relies on, and `rest` beside. -/
def Serves (s : Storage) (n : Int) (shelf : Shelf) (rest : Cells Obj) : Prop :=
  ∃ t table own lost, s.table = some t ∧ HoldsTable s.heap t table (own + lost + rest) ∧
    table.Keeps shelf.contents ∧ table.Covered ∧ table.countLists = n ∧
    CopiesAt s.copies shelf.copies own ∧ LostAt shelf.losses lost

variable {s : Storage} {shelf : Shelf} {rest : Cells Obj}

theorem hashes_table {table : TableT} (ht : s.table = some t)
    (hh : HoldsTable s.heap t table rest) :
    s.hashes key = decide (Hashed table.countLists key) := by
  obtain ⟨arr, hload⟩ := load_table hh
  simp [hashes, ht, hload]

theorem dup_void {value : DataT} (hv : value.void) (m : DataMem) :
    dataDup (some value) m = .ok none := by
  obtain ⟨n, data⟩ := value
  cases data with
  | none => rfl
  | some source =>
    have hn : n ≤ 0 := hv.resolve_left (by simp)
    simp [dataDup, hn]

theorem tablePut_keeps {table : TableT} {value : DataT} (hkeeps : table.Keeps m)
    (hcovered : table.Covered)
    (hr : value.void ∨ (Hashed table.countLists key ∧ value.Valid ∧
      value.datasize ≤ sizeofDataT ∧ HashMapStorage.appendable table key = true))
    (mem : PutMem) :
    ∃ table', HashMapStorage.tablePut table (some key) (some value) mem =
        .ok (if value.void then -1 else 0, table') ∧
      table'.Keeps (if value.void then m else Function.update m key (some value.bytes)) ∧
      table'.Covered ∧ table'.countLists = table.countLists := by
  by_cases hv : value.void
  · refine ⟨table, ?_, by simpa [hv] using hkeeps, hcovered, rfl⟩
    rw [tablePut_eq hkeeps.maps.some_list, dup_void hv, ok_bind, if_pos hv]
    rfl
  · obtain ⟨hk, hvalid, hsize, happ⟩ := hr.resolve_left hv
    obtain ⟨table', hput, hmaps, hcount⟩ := tablePut_maps hkeeps.maps hk hvalid hsize happ mem
    simp only [hv, ↓reduceIte]
    exact ⟨table', hput, ⟨hmaps, hcount ▸ hkeeps.placed.update hk _⟩,
      tablePut_covered hcovered hkeeps.maps hk happ hput, hcount⟩

theorem put_serves {value : DataT} {m : ObjMem} (hs : s.Serves n shelf rest)
    (hr : s.ready (.put key value m) = true) :
    ∃ reply s', s.perform (.put key value m) = .ok (reply, s') ∧
      shelf.Answers (.put key value m) reply ∧
      s'.Serves n (shelf.after (.put key value m)) rest := by
  obtain ⟨t, table, own, lost, ht, hh, hkeeps, hcovered, hn, hcopies, hlost⟩ := hs
  have hready : value.void ∨ (Hashed table.countLists key ∧ value.Valid ∧
      value.datasize ≤ sizeofDataT ∧ HashMapStorage.appendable table key = true) := by
    simp only [ready, hashes_table ht hh, Bool.or_eq_true, Bool.and_eq_true, decide_eq_true_eq]
      at hr
    refine hr.imp_right fun ⟨⟨⟨hk, hvalid⟩, hsize⟩, happ⟩ => ⟨hk, hvalid, hsize, ?_⟩
    rwa [ht, appendable_objects hh hkeeps.maps hk] at happ
  have hkey := HoldsTable.place hh m.malloc (.str key)
  generalize hp : s.heap.place m.malloc (.str key) = placed at hkey
  obtain ⟨k, h₁⟩ := placed
  obtain ⟨args, hdata, hvalue⟩ := makeData_table hkey value m
  generalize hp' : makeData h₁ value m = made at hdata hvalue
  obtain ⟨v, h₂⟩ := made
  have hk : (k, .str key) ∈ args + (k, Obj.str key) ::ₘ (own + lost + rest) := by simp
  obtain ⟨mem, hput⟩ := tablePut_table hvalue hkeeps.maps.some_list hk hdata
    (Multiset.le_add_right args _) m
  obtain ⟨table', hrun, hkeeps', hcovered', hcount⟩ := tablePut_keeps hkeeps hcovered hready mem
  obtain ⟨h₃, lost', hrun', hloss, hh₃⟩ := hput _ table' hrun
  rw [add_left_comm] at hh₃
  obtain ⟨h₄, hdestroy, hh₄⟩ := HoldsTable.destroyData hh₃ hdata
  rw [Multiset.add_cons] at hh₄
  obtain ⟨h₅, hfree, hh₅⟩ := HoldsTable.free hh₄
  refine ⟨_, { s with heap := h₅ }, ?_, rfl, t, table', own, lost' + lost, ht, ?_, hkeeps',
    hcovered', hcount.trans hn, hcopies, hloss.append hlost⟩
  · simp only [perform, hp, hp', ht, hrun', hdestroy, hfree, ok_bind, pure_eq_ok]
  · convert hh₅ using 1
    abel

theorem tableGet_keeps {table : TableT} (hkeeps : table.Keeps m) (key : CStr) (mem : DataMem) :
    ∃ d, HashMapStorage.tableGet table (some key) mem = .ok d ∧ Returns (m key) d := by
  by_cases hk : Hashed table.countLists key
  · exact tableGet_maps hkeeps.maps hk mem
  · have hnone : m key = none := by
      rw [← Option.not_isSome_iff_eq_none]
      exact fun hsome => hk (hkeeps.placed key hsome)
    exact ⟨none, tableGet_unhashed hkeeps.maps hk mem, by rw [hnone]; rfl⟩

theorem get_serves {m : ObjMem} (hs : s.Serves n shelf rest) (key : CStr) :
    ∃ reply s', s.perform (.get key m) = .ok (reply, s') ∧ shelf.Answers (.get key m) reply ∧
      s'.Serves n (shelf.after (.get key m)) rest := by
  obtain ⟨t, table, own, lost, ht, hh, hkeeps, hcovered, hn, hcopies, hlost⟩ := hs
  have hkey := HoldsTable.place hh m.malloc (.str key)
  generalize hp : s.heap.place m.malloc (.str key) = placed at hkey
  obtain ⟨k, h₁⟩ := placed
  obtain ⟨b, hget⟩ := tableGet_table hkey (Multiset.mem_cons_self (k, Obj.str key) _) m
  obtain ⟨d, hrun, hreturns⟩ := tableGet_keeps hkeeps key (m.dataMem b)
  obtain ⟨p, h₂, cells, lost', hrun', hat, hloss, hh₂⟩ := hget d hrun
  rw [Multiset.add_cons] at hh₂
  obtain ⟨h₃, hfree, hh₃⟩ := HoldsTable.free hh₂
  have hw : Within h₃ cells := fun x hx => rest_table hh₃ (by simp [hx])
  refine ⟨.copy d, ⟨h₃, s.table, if p = none then s.copies else p :: s.copies⟩, ?_,
    ⟨d, rfl, hreturns⟩, ?_⟩
  · have hread : readData h₃ p = .ok d := by
      cases hat with
      | null => rfl
      | value hd => exact readData_data hd hw
    simp only [perform, hp, ht, hrun', hfree, hread, ok_bind, pure_eq_ok]
  · cases hat with
    | null =>
      cases hloss
      have hnone : shelf.contents key = none := by
        cases hm : shelf.contents key with
        | none => rfl
        | some bytes =>
          rw [hm] at hreturns
          obtain ⟨copy, hcopy, -⟩ := hreturns
          cases hcopy
      simp only [Shelf.after, hnone]
      exact ⟨t, table, own, lost, ht, by simpa using hh₃, hkeeps, hcovered, hn, hcopies, hlost⟩
    | @value a copy _ hd =>
      obtain ⟨bytes, hm, hvalid, rfl⟩ : ∃ bytes, shelf.contents key = some bytes ∧ copy.Valid ∧
          copy.bytes = bytes := by
        cases hm : shelf.contents key with
        | none =>
          rw [hm] at hreturns
          cases hreturns
        | some bytes =>
          rw [hm] at hreturns
          obtain ⟨_, hcopy, hvalid, hbytes⟩ := hreturns
          cases hcopy
          exact ⟨bytes, rfl, hvalid, hbytes⟩
      simp only [Shelf.after, hm]
      refine ⟨t, table, cells + own, lost' + lost, ht, ?_, hkeeps, hcovered, hn,
        .cons hd hvalid hcopies, ?_⟩
      · convert hh₃ using 1
        abel
      · rw [hvalid.bytes_length]
        exact hloss.append hlost

theorem del_serves {m : ObjMem} (hs : s.Serves n shelf rest)
    (hr : s.ready (.del key m) = true) :
    ∃ reply s', s.perform (.del key m) = .ok (reply, s') ∧ shelf.Answers (.del key m) reply ∧
      s'.Serves n (shelf.after (.del key m)) rest := by
  obtain ⟨t, table, own, lost, ht, hh, hkeeps, hcovered, hn, hcopies, hlost⟩ := hs
  have hk : Hashed table.countLists key := by
    simpa only [ready, hashes_table ht hh, decide_eq_true_eq] using hr
  have hkey := HoldsTable.place hh m.malloc (.str key)
  generalize hp : s.heap.place m.malloc (.str key) = placed at hkey
  obtain ⟨k, h₁⟩ := placed
  obtain ⟨table', hrun, hmaps, hcount⟩ := tableDel_maps hkeeps.maps hk
  obtain ⟨h₂, hrun', hh₂⟩ := tableDel_table hkey (Multiset.mem_cons_self (k, Obj.str key) _) hrun
  obtain ⟨h₃, hfree, hh₃⟩ := HoldsTable.free hh₂
  refine ⟨_, { s with heap := h₃ }, ?_, rfl, t, table', own, lost, ht, hh₃,
    ⟨hmaps, hcount ▸ hkeeps.placed.update hk _⟩, tableDel_covered hcovered hkeeps.maps hk hrun,
    hcount.trans hn, hcopies, hlost⟩
  simp only [perform, hp, ht, hrun', hfree, ok_bind, pure_eq_ok]

theorem size_serves (hs : s.Serves n shelf rest) :
    ∃ reply s', s.perform .size = .ok (reply, s') ∧ shelf.Answers .size reply ∧
      s'.Serves n (shelf.after .size) rest := by
  obtain ⟨t, table, own, lost, ht, hh, hkeeps, hcovered, hn, hcopies, hlost⟩ := id hs
  obtain ⟨arr, hload⟩ := load_table hh
  obtain ⟨chains, hchained, hbuckets, -⟩ := hkeeps.maps.all_chains hcovered
  refine ⟨.number table.size, s, ?_, ⟨keysOf chains, hkeeps.keysOf_lists hchained hbuckets, ?_⟩,
    hs⟩
  · simp [perform, ht, Objects.tableSize, hload]
  · rw [hchained.size]

theorem keys_serves {m : ObjMem} (hs : s.Serves n shelf rest)
    (hr : s.ready (.keys m) = true) :
    ∃ reply s', s.perform (.keys m) = .ok (reply, s') ∧ shelf.Answers (.keys m) reply ∧
      s'.Serves n (shelf.after (.keys m)) rest := by
  obtain ⟨t, table, own, lost, ht, hh, hkeeps, hcovered, hn, hcopies, hlost⟩ := hs
  obtain ⟨arr, hload⟩ := load_table hh
  have hsize : table.size < intMax := by
    simpa [ready, ht, Objects.tableSize, hload] using hr
  obtain ⟨chains, hchained, hbuckets, -⟩ := hkeeps.maps.all_chains hcovered
  obtain ⟨fa, as, h₁, hkeys, hlen, hh₁⟩ := tableGetKeys_table hh hchained hsize m
  have harr : h₁.cell fa =
      some (.keys (([] : List (Option Ptr)) ++ stringSlots as ++ [some none])) :=
    rest_table hh₁ (Multiset.mem_cons_self ..)
  have hslots : load Obj.asKeys h₁ (some fa) = .ok (stringSlots as ++ [some none]) :=
    load_cell harr rfl
  have hw : Within h₁ (stringCells as (keysOf chains)) := fun x hx =>
    rest_table hh₁ (Multiset.mem_cons_of_mem (Multiset.mem_add.mpr (.inl hx)))
  have hread := readKeys_strings [] hlen harr hw (Nat.lt_succ_self _)
  obtain ⟨u, hl, hback⟩ := HoldsTable.beside hh₁
  rw [Multiset.add_cons, add_left_comm] at hl
  obtain ⟨h₂, hfree, hl₂, htop⟩ := tableFreeKeys_frees hlen hl
  refine ⟨.keys (keysOf chains), ⟨h₂, s.table, s.copies⟩, ?_,
    ⟨keysOf chains, hkeeps.keysOf_lists hchained hbuckets, rfl⟩,
    t, table, own, lost, ht, hback hl₂ htop, hkeeps, hcovered, hn, hcopies, hlost⟩
  have hcount : (stringSlots as ++ [some none]).length = as.length + 1 := by simp
  simp only [perform, ht, hkeys, hslots, hcount, hfree, ok_bind, pure_eq_ok]
  rw [List.length_nil] at hread
  simp only [hread, ok_bind]

theorem release_serves (hs : s.Serves n shelf rest) (i : Nat) :
    ∃ reply s', s.perform (.release i) = .ok (reply, s') ∧ shelf.Answers (.release i) reply ∧
      s'.Serves n (shelf.after (.release i)) rest := by
  obtain ⟨t, table, own, lost, ht, hh, hkeeps, hcovered, hn, hcopies, hlost⟩ := id hs
  simp only [perform]
  cases hi : s.copies[i]? with
  | none =>
    have hlen := hcopies.length_eq
    have hout : shelf.copies[i]? = none := by
      rw [List.getElem?_eq_none_iff] at hi ⊢
      omega
    have hsame : shelf.after (.release i) = shelf := by
      rw [List.getElem?_eq_none_iff] at hout
      simp [Shelf.after, List.eraseIdx_of_length_le hout]
    exact ⟨_, s, rfl, ⟨none, rfl, by rw [hout]; rfl⟩, by rwa [hsame]⟩
  | some p =>
    obtain ⟨a, d, cells, others, rfl, hd, hvalid, hbytes, rfl, hrest⟩ := hcopies.focus hi
    have hw : Within s.heap cells := fun x hx => rest_table hh (by simp [hx])
    rw [Multiset.add_assoc, Multiset.add_assoc] at hh
    obtain ⟨h₁, hdestroy, hh₁⟩ := HoldsTable.destroyData hh hd
    refine ⟨.copy (some d), ⟨h₁, s.table, s.copies.eraseIdx i⟩, ?_,
      ⟨some d, rfl, by rw [hbytes]; exact ⟨d, rfl, hvalid, rfl⟩⟩,
      t, table, others, lost, ht, by rwa [Multiset.add_assoc], hkeeps, hcovered, hn, hrest, hlost⟩
    simp only [readData_data hd hw, hdestroy, ok_bind, pure_eq_ok]

-- ---------------------------------------------------------------------------
-- Runs
-- ---------------------------------------------------------------------------

theorem perform_serves (hs : s.Serves n shelf rest) {call : StorageCall}
    (hr : s.ready call = true) :
    ∃ reply s', s.perform call = .ok (reply, s') ∧ shelf.Answers call reply ∧
      s'.Serves n (shelf.after call) rest := by
  cases call with
  | put key value m => exact put_serves hs hr
  | get key m => exact get_serves hs key
  | del key m => exact del_serves hs hr
  | size => exact size_serves hs
  | keys m => exact keys_serves hs hr
  | release i => exact release_serves hs i

theorem run_serves {calls : List StorageCall} (hs : s.Serves n shelf rest)
    (hr : s.runReady calls = true) :
    ∃ replies s', s.run calls = .ok (replies, s') ∧ shelf.AnswersAll calls replies ∧
      s'.Serves n (shelf.afterAll calls) rest := by
  induction calls generalizing s shelf with
  | nil => exact ⟨[], s, rfl, trivial, hs⟩
  | cons call calls ih =>
    obtain ⟨hready, hrest⟩ := Bool.and_eq_true_iff.mp hr
    obtain ⟨reply, s₁, hperform, hanswers, hs₁⟩ := perform_serves hs hready
    simp only [hperform] at hrest
    obtain ⟨replies, s', hrun, hall, hs'⟩ := ih hs₁ hrest
    exact ⟨reply :: replies, s', by simp only [run, hperform, hrun, ok_bind, pure_eq_ok],
      ⟨hanswers, hall⟩, hs'⟩

theorem create_serves {n : Int} (hn : 1 ≤ n) (hl : Ledger h rest) (m : ObjMem) :
    ∃ s, create h n m = .ok s ∧ s.Serves n .empty rest := by
  obtain ⟨table, hc⟩ : ∃ table, HashMapStorage.tableCreate n = some table :=
    ⟨_, dif_neg (by omega)⟩
  obtain ⟨t, h', hcreate, hh⟩ := tableCreate_table hc hl m
  have hcount : table.countLists = n := by
    unfold HashMapStorage.tableCreate at hc
    split at hc
    · cases hc
    · cases hc
      rfl
  refine ⟨⟨h', some t, []⟩, by simp only [create, hcreate, ok_bind, pure_eq_ok], t, table, 0, 0,
    rfl, by simpa using hh, ⟨tableCreate_maps hc, ?_⟩, tableCreate_covered hc, hcount, .nil, .nil⟩
  intro key hk
  cases hk

/-- Every call on a new table with `n` lists meets a ready table. -/
def createReady (h : Heap Obj) (n : Int) (m : ObjMem) (calls : List StorageCall) : Bool :=
  match create h n m with
  | .ok s => s.runReady calls
  | .error _ => true

theorem create_run_serves {n : Int} {calls : List StorageCall} (hn : 1 ≤ n) (hl : Ledger h rest)
    (hr : createReady h n m calls = true) :
    ∃ s replies s', create h n m = .ok s ∧ s.run calls = .ok (replies, s') ∧
      Shelf.empty.AnswersAll calls replies ∧ s'.Serves n (Shelf.empty.afterAll calls) rest := by
  obtain ⟨s, hcreate, hs⟩ := create_serves hn hl m
  obtain ⟨replies, s', hrun, hall, hs'⟩ := run_serves hs (by simpa [createReady, hcreate] using hr)
  exact ⟨s, replies, s', hcreate, hrun, hall, hs'⟩

/-- No call of the run on a new table follows or releases a pointer to what is
not allocated, all answer as a map does, and what `table_get` gave keeps its
bytes to the end. -/
def SafeRun (h : Heap Obj) (n : Int) (m : ObjMem) (calls : List StorageCall) : Prop :=
  ∃ s replies s' own, create h n m = .ok s ∧ s.run calls = .ok (replies, s') ∧
    Shelf.empty.AnswersAll calls replies ∧
    CopiesAt s'.copies (Shelf.empty.afterAll calls).copies own ∧ Within s'.heap own

theorem storage_safe {n : Int} {calls : List StorageCall} (hn : 1 ≤ n)
    (hr : createReady h n m calls = true) : SafeRun h n m calls := by
  obtain ⟨rest, hl⟩ := Ledger.exists_ledger h
  obtain ⟨s, replies, s', hcreate, hrun, hall, t, table, own, lost, -, hh, -, -, -, hcopies, -⟩ :=
    create_run_serves hn hl hr
  have hw : Within s'.heap own := fun x hx => rest_table hh (by simp [hx])
  exact ⟨s, replies, s', own, hcreate, hrun, hall, hcopies, hw⟩

def sampleCalls : List StorageCall :=
  let (a, b, c) := (charKey 97, charKey 98, charKey 99)
  [.put a ⟨2, some [1, 2]⟩ freshMem, .get a freshMem, .put c (byteValue 4) freshMem,
    .put a (byteValue 3) freshMem, .get a freshMem, .keys freshMem, .size, .release 1,
    .del a freshMem, .get a freshMem, .put b ⟨0, none⟩ freshMem]

theorem storage_safe_sample : SafeRun .empty 2 freshMem sampleCalls :=
  storage_safe (by decide) (by decide +kernel)

/-- A run and `table_destroy` leave the blocks that were there before, the
copies that `table_get` gave, and what leaked on the way. -/
def Leaves (h : Heap Obj) (rest : Cells Obj) (n : Int) (m : ObjMem) (calls : List StorageCall) :
    Prop :=
  ∃ s replies s' h' own lost, create h n m = .ok s ∧ s.run calls = .ok (replies, s') ∧
    Objects.tableDestroy s'.heap s'.table = .ok h' ∧
    CopiesAt s'.copies (Shelf.empty.afterAll calls).copies own ∧
    LostAt (Shelf.empty.afterAll calls).losses lost ∧ Ledger h' (own + lost + rest)

theorem storage_leaves {n : Int} {calls : List StorageCall} (hn : 1 ≤ n) (hl : Ledger h rest)
    (hr : createReady h n m calls = true) : Leaves h rest n m calls := by
  obtain ⟨s, replies, s', hcreate, hrun, -, t, table, own, lost, ht, hh, hkeeps, hcovered, -,
    hcopies, hlost⟩ := create_run_serves hn hl hr
  obtain ⟨chains, -, -, hchains⟩ := hkeeps.maps.all_chains hcovered
  obtain ⟨h', hdestroy, hl'⟩ := tableDestroy_frees hh hchains
  exact ⟨s, replies, s', h', own, lost, hcreate, hrun, by rw [ht]; exact hdestroy, hcopies, hlost,
    hl'⟩

theorem storage_leaves_sample : Leaves .empty 0 2 freshMem sampleCalls :=
  storage_leaves (by decide) .empty (by decide +kernel)

example : (Shelf.empty.afterAll sampleCalls).losses =
    [.key (charKey 98), .bytes 1, .bytes 1, .bytes 1, .bytes 2, .bytes 2] := rfl

end Storage

end HashMapStorage

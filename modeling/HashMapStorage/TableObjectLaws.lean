import HashMapStorage.Lookup
import HashMapStorage.ObjectLaws
import HashMapStorage.TableObjects

/-!
# What the objects of a table hold

`HoldsTable h t table rest`: in `h` the structure at `t` is that of `table`,
with all its lists, nodes, entries, keys and values, beside the blocks `rest`
and nothing else. `table_put`, `table_get` and `table_del` are shown to do to
the objects what they do to the table of values. What `table_put` and
`table_get` lose is one block for every copy that `data_dup` makes.
-/

namespace HashMapStorage

open Machine

def listCells (ls : List Nat) (lists : List ListT) : Cells Obj :=
  ((ls.zip lists).map fun x => (x.1, Obj.list x.2) : List (Nat × Obj))

def headCells (t arr : Nat) (ls : List Nat) (table : TableT) : Cells Obj :=
  (t, .table ⟨some arr, table.size, table.countLists⟩) ::ₘ {(arr, .lists (ls.map some))}

def HoldsTable (h : Heap Obj) (t : Nat) (table : TableT) (rest : Cells Obj) : Prop :=
  ∃ arr ls, ls.length = table.list.length ∧
    HoldsNodes h table.nodes (listCells ls table.list + (headCells t arr ls table + rest))

theorem listCells_focus {ls : List Nat} {lists : List ListT} {i : Nat}
    (hlen : ls.length = lists.length) (hi : lists[i]? = some list) :
    ∃ l others, ls[i]? = some l ∧ listCells ls lists = (l, .list list) ::ₘ others ∧
      ∀ list', listCells ls (lists.set i list') = (l, .list list') ::ₘ others := by
  induction lists generalizing ls i with
  | nil => simp at hi
  | cons first lists ih =>
    obtain ⟨l, ls, rfl⟩ : ∃ l ls', ls = l :: ls' := by
      cases ls with
      | nil => simp at hlen
      | cons l ls => exact ⟨l, ls, rfl⟩
    cases i with
    | zero =>
      obtain rfl : first = list := by simpa using hi
      exact ⟨l, listCells ls lists, rfl, rfl, fun _ => rfl⟩
    | succ i =>
      obtain ⟨l', others, hl', hcells, hset⟩ :=
        ih (i := i) (by simpa using hlen) (by simpa using hi)
      refine ⟨l', (l, .list first) ::ₘ others, by simpa using hl', ?_, fun list' => ?_⟩
      · rw [Multiset.cons_swap, ← hcells]
        rfl
      · rw [Multiset.cons_swap, ← hset]
        rfl

namespace Objects

variable {h h' : Heap Obj} {rest : Cells Obj} {table table' : TableT}

theorem load_table (hh : HoldsTable h t table rest) :
    ∃ arr, load Obj.asTable h (some t) = .ok ⟨some arr, table.size, table.countLists⟩ := by
  obtain ⟨arr, ls, -, hn⟩ := hh
  have hcell : h.cell t = some (.table ⟨some arr, table.size, table.countLists⟩) :=
    rest_cell hn (x := (t, _)) (by simp [headCells])
  exact ⟨arr, load_cell hcell rfl⟩

theorem focus_list {i : Int} (hh : HoldsTable h t table rest)
    (ht : load Obj.asTable h (some t) = .ok ⟨some arr, table.size, table.countLists⟩)
    (hi : table.listAt i = .ok list) :
    ∃ l others, listAt h (some arr) i = .ok (some l) ∧
      HoldsNodes h table.nodes ((l, .list list) ::ₘ (others + rest)) ∧
      ∀ {h' nodes' list' rest'}, HoldsNodes h' nodes' ((l, .list list') ::ₘ (others + rest')) →
        HoldsTable h' t (table.setList i nodes' list') rest' := by
  obtain ⟨arr', ls, hlen, hn⟩ := hh
  have hcell : h.cell t = some (.table ⟨some arr', table.size, table.countLists⟩) :=
    rest_cell hn (x := (t, _)) (by simp [headCells])
  have hload : load Obj.asTable h (some t) = .ok ⟨some arr', table.size, table.countLists⟩ :=
    load_cell hcell rfl
  rw [hload] at ht
  obtain rfl : arr' = arr := by simpa using ht
  have harr : load Obj.asLists h (some arr') = .ok (ls.map some) :=
    load_cell (rest_cell hn (x := (arr', .lists (ls.map some))) (by simp [headCells])) rfl
  unfold TableT.listAt at hi
  split at hi
  · cases hi
  rename_i hneg
  split at hi
  swap
  · cases hi
  rename_i hget
  cases hi
  obtain ⟨l, others, hl, hcells, hset⟩ := listCells_focus hlen hget
  refine ⟨l, others + headCells t arr' ls table, ?_, ?_, ?_⟩
  · simp [listAt, harr, hneg, hl]
  · rwa [hcells, Multiset.cons_add, ← Multiset.add_assoc] at hn
  · intro h' nodes' list' rest' hn'
    refine ⟨arr', ls, by simpa [TableT.setList] using hlen, ?_⟩
    have hcells' : listCells ls (table.setList i nodes' list').list = (l, .list list') ::ₘ others :=
      hset list'
    have hhead : headCells t arr' ls (table.setList i nodes' list') = headCells t arr' ls table :=
      rfl
    rw [hcells', hhead, Multiset.cons_add, ← Multiset.add_assoc]
    exact hn'

theorem HoldsTable.beside (hh : HoldsTable h t table rest) :
    ∃ s, Ledger h (s + rest) ∧ ∀ {h' rest'}, Ledger h' (s + rest') → h.top ≤ h'.top →
      HoldsTable h' t table rest' := by
  obtain ⟨arr, ls, hlen, s, hc, hl, htop⟩ := hh
  refine ⟨s + (listCells ls table.list + headCells t arr ls table), ?_, fun hl' htop' => ?_⟩
  · rwa [Multiset.add_assoc, Multiset.add_assoc]
  · rw [Multiset.add_assoc, Multiset.add_assoc] at hl'
    exact ⟨arr, ls, hlen, s, hc, hl', htop.trans htop'⟩

theorem HoldsTable.ledger (hh : HoldsTable h t table rest) :
    ∃ s, Ledger h s ∧ ∀ {h' n}, Ledger h' (n + s) → h.top ≤ h'.top →
      HoldsTable h' t table (n + rest) := by
  obtain ⟨s, hl, hback⟩ := HoldsTable.beside hh
  refine ⟨s + rest, hl, fun hl' htop => hback ?_ htop⟩
  rwa [add_left_comm]

theorem rest_table (hh : HoldsTable h t table rest) (hx : x ∈ rest) :
    h.cell x.1 = some x.2 := by
  obtain ⟨arr, ls, -, hn⟩ := hh
  exact rest_cell hn (by simp [hx])

theorem setTableSize_table (hh : HoldsTable h t table rest) (size : Int) :
    ∃ h', setTableSize h (some t) size = .ok h' ∧
      HoldsTable h' t { table with size } rest := by
  obtain ⟨arr, hload⟩ := load_table hh
  obtain ⟨arr', ls, hlen, hn⟩ := hh
  have hcells : listCells ls table.list + (headCells t arr' ls table + rest) =
      (t, .table ⟨some arr', table.size, table.countLists⟩) ::ₘ
        ((arr', .lists (ls.map some)) ::ₘ (listCells ls table.list + rest)) := by
    simp only [headCells, ← Multiset.singleton_add]
    abel
  rw [hcells] at hn
  have hload' : load Obj.asTable h (some t) = .ok ⟨some arr', table.size, table.countLists⟩ :=
    load_cell (rest_cell hn (Multiset.mem_cons_self ..)) rfl
  obtain ⟨h', hstore, hn'⟩ := store_rest hn (.table ⟨some arr', size, table.countLists⟩)
  refine ⟨h', by rw [setTableSize, hload', ok_bind, hstore], arr', ls, hlen, ?_⟩
  convert hn' using 1
  simp only [headCells, ← Multiset.singleton_add]
  abel

-- ---------------------------------------------------------------------------
-- table_get
-- ---------------------------------------------------------------------------

theorem listAt_drop {i : Nat} (hi : i < table.list.length) :
    table.listAt i = .ok table.list[i] := by
  simp [TableT.listAt, List.getElem?_eq_getElem hi]

theorem tableGetLoop_table (hh : HoldsTable h t table rest)
    (ht : load Obj.asTable h (some t) = .ok ⟨some arr, table.size, table.countLists⟩)
    (hk : (k, .str key) ∈ rest) (m : ObjMem)
    (hfind : tableFindLoop table.nodes key (table.list.drop i) = .ok r)
    (hleft : left = table.list.length - i) :
    (r = none → tableGetLoop h (some arr) (some k) m left i = .ok (none, h)) ∧
      ∀ entry, r = some entry → ∃ e s, EntryAt e entry s ∧ Within h s ∧
        tableGetLoop h (some arr) (some k) m left i = (do
          let e ← load Obj.asEntry h (some e)
          dataDup h e.value m) := by
  induction left generalizing i with
  | zero =>
    rw [List.drop_of_length_le (by omega)] at hfind
    cases hfind
    exact ⟨fun _ => rfl, fun _ hr => by cases hr⟩
  | succ left ih =>
    have hi : i < table.list.length := by omega
    rw [List.drop_eq_getElem_cons hi, tableFindLoop] at hfind
    obtain ⟨found, hget, hfind⟩ := seq_ok hfind
    obtain ⟨l, others, hat, hn, -⟩ := focus_list hh ht (listAt_drop hi)
    obtain ⟨q, hget', hfound⟩ := listGet_nodes hn (rest_table hh hk) hget
    simp only [tableGetLoop, hat, hget', ok_bind]
    cases hfound with
    | null => exact ih hfind (by omega)
    | @entry f g s hf hw =>
      cases hfind
      refine ⟨(by simp), fun entry hr => ?_⟩
      cases hr
      exact ⟨f, s, hf, hw, by simp⟩

theorem entry_value (he : EntryAt e entry s) (hw : Within h s) :
    ∃ k v own, load Obj.asEntry h (some e) = .ok ⟨some k, some v⟩ ∧ DataAt v entry.value own ∧
      Within h own := by
  cases he with
  | @mk value s key k v hv =>
    refine ⟨k, v, s, load_cell (hw (e, .entry _) (by simp)) rfl, hv, fun x hx => hw x ?_⟩
    simp [hx]

theorem tableGet_table (hh : HoldsTable h t table rest) (hk : (k, .str key) ∈ rest)
    (m : ObjMem) :
    ∃ b, ∀ r, HashMapStorage.tableGet table (some key) (m.dataMem b) = .ok r →
      ∃ p h' copy lost, tableGet h (some t) (some k) m = .ok (p, h') ∧ CopyAt p r copy ∧
        LostAt (copyLoss r) lost ∧ HoldsTable h' t table (copy + lost + rest) := by
  obtain ⟨arr, ht⟩ := load_table hh
  have hzero : HoldsTable h t table (0 + 0 + rest) := by simpa using hh
  simp only [tableGet, ht, ok_bind]
  by_cases hn : table.countLists = 0
  · refine ⟨0, fun r hr => ?_⟩
    simp only [HashMapStorage.tableGet, hn, ↓reduceIte] at hr
    cases hr
    exact ⟨none, h, 0, 0, by simp [hn], .null, .nil, hzero⟩
  have hleft : table.countLists.toNat = table.list.length - 0 := by
    have := table.counted
    omega
  cases hfind : tableFind table key with
  | error f =>
    refine ⟨0, fun r hr => ?_⟩
    rw [tableGet_find, hfind] at hr
    cases hr
  | ok found =>
    have hloop : tableFindLoop table.nodes key (table.list.drop 0) = .ok found := by
      simpa [tableFind, hn] using hfind
    obtain ⟨hnone, hsome⟩ := tableGetLoop_table hh ht hk m hloop hleft
    simp only [tableGet_find, hfind, ok_bind]
    cases found with
    | none =>
      refine ⟨0, fun r hr => ?_⟩
      cases hr
      exact ⟨none, h, 0, 0, by simp [hn, hnone rfl], .null, .nil, hzero⟩
    | some entry =>
      obtain ⟨e, s, he, hw, hrun⟩ := hsome entry rfl
      obtain ⟨k', v, own, hload, hv, hwv⟩ := entry_value he hw
      obtain ⟨u, hl, hgain⟩ := HoldsTable.ledger hh
      obtain ⟨b, hdup⟩ := dataDup_copies hv hl hwv m
      refine ⟨b, fun r hr => ?_⟩
      obtain ⟨p, h', copy, lost, hcopy, htop, hat, hlost, hl'⟩ := hdup r hr
      refine ⟨p, h', copy, lost, ?_, hat, hlost, hgain hl' htop⟩
      simp [hn, hrun, hload, hcopy]

-- ---------------------------------------------------------------------------
-- table_del
-- ---------------------------------------------------------------------------

theorem tableDel_table (hh : HoldsTable h t table rest) (hk : (k, .str key) ∈ rest)
    (hrun : HashMapStorage.tableDel table (some key) = .ok (r, table')) :
    ∃ h', tableDel h (some t) (some k) = .ok (r, h') ∧ HoldsTable h' t table' rest := by
  obtain ⟨arr, ht⟩ := load_table hh
  have hkey : load Obj.asStr h (some k) = .ok key := load_cell (rest_table hh hk) rfl
  simp only [tableDel, ht, hkey, ok_bind]
  simp only [HashMapStorage.tableDel] at hrun
  split at hrun
  · rename_i hn
    cases hrun
    exact ⟨h, by simp [hn], hh⟩
  rename_i hn
  obtain ⟨i, hhash, hrun⟩ := seq_ok hrun
  obtain ⟨list, hlist, hrun⟩ := seq_ok hrun
  obtain ⟨found, hget, hrun⟩ := seq_ok hrun
  obtain ⟨l, others, hat, hnodes, hback⟩ := focus_list hh ht hlist
  obtain ⟨q, hget', hfound⟩ := listGet_nodes hnodes (rest_table hh hk) hget
  cases hfound with
  | null =>
    cases hrun
    exact ⟨h, by simp [hn, hhash, hat, hget'], hh⟩
  | @entry f g s hf hw =>
    obtain ⟨⟨r', nodes, list'⟩, hremove, hrun⟩ := seq_ok hrun
    obtain ⟨size, hsize, hrun⟩ := seq_ok hrun
    cases hrun
    obtain ⟨h₁, hremove', hnodes₁⟩ :=
      listRemove_nodes hnodes (Multiset.mem_add.mpr (.inr hk)) hremove
    obtain ⟨h₂, hset, hh₂⟩ := setTableSize_table (hback hnodes₁) size
    exact ⟨h₂, by simp [hn, hhash, hat, hget', hremove', hsize, hset], hh₂⟩

-- ---------------------------------------------------------------------------
-- table_put
-- ---------------------------------------------------------------------------

/-- `table_put` up to the point where the entry is added: the index of the list,
the nodes and the list without the key, and whether the key was there. -/
def tableMakeRoom (table : TableT) (key : CStr) : Exec (Int × Heap NodeT × ListT × Bool) := do
  let indiceLista ← hash key table.countLists
  let list ← table.listAt indiceLista
  match ← HashMapStorage.listGet table.nodes list (some key) with
  | some _ =>
    let (_, nodes, list) ← HashMapStorage.listRemove table.nodes list (some key)
    pure (indiceLista, nodes, list, true)
  | none => pure (indiceLista, table.nodes, list, false)

def tableLink (table : TableT) (entry : EntryT) (m : Malloc NodeT)
    (room : Int × Heap NodeT × ListT × Bool) : Exec (Int × TableT) := do
  let (indiceLista, nodes, list, there) := room
  let (_, nodes, list) ← HashMapStorage.listAdd nodes list entry m
  if there then pure (0, table.setList indiceLista nodes list)
  else
    let size ← checkInt (table.size + 1)
    pure (0, { table.setList indiceLista nodes list with size })

theorem tableAddEntry_eq (table : TableT) (entry : EntryT) (m : Malloc NodeT) :
    HashMapStorage.tableAddEntry table entry m =
      tableMakeRoom table entry.key >>= tableLink table entry m := by
  simp only [HashMapStorage.tableAddEntry, tableMakeRoom]
  cases hash entry.key table.countLists with
  | error f => rfl
  | ok i =>
    simp only [ok_bind]
    cases table.listAt i with
    | error f => rfl
    | ok list =>
      simp only [ok_bind]
      cases HashMapStorage.listGet table.nodes list (some entry.key) with
      | error f => rfl
      | ok found =>
        cases found with
        | none => rfl
        | some found =>
          simp only [ok_bind]
          cases HashMapStorage.listRemove table.nodes list (some entry.key) with
          | error f => rfl
          | ok removed => rfl

theorem malloc_node {view : Heap NodeT} (hh : HoldsNodes h view rest) (m : Malloc Obj)
    (junk : NodeT) : (Malloc.at (m.addr h) junk).addr view = m.addr h := by
  simp [Malloc.at, fresh_node hh (m.fresh h)]

theorem tableAddEntry_table {arr : Nat} (hh : HoldsTable h t table (own + rest))
    (ht : load Obj.asTable h (some t) = .ok ⟨some arr, table.size, table.countLists⟩)
    (he : EntryAt e entry own) (hn : (newKey, .str entry.key) ∈ own)
    (hk : (k, .str entry.key) ∈ rest) (m : ObjMem) :
    ∃ node, ∀ r table', HashMapStorage.tableAddEntry table entry node = .ok (r, table') →
      ∃ h', tableAddEntry h (some t) ⟨some arr, table.size, table.countLists⟩ (some newKey)
          (some k) (some e) m = .ok (r, h') ∧ HoldsTable h' t table' rest := by
  simp only [tableAddEntry_eq]
  cases hroom : tableMakeRoom table entry.key with
  | error f => exact ⟨mallocTop ⟨entry, none⟩, fun r table' hr => by cases hr⟩
  | ok room =>
    obtain ⟨i, hhash, hroom⟩ := seq_ok hroom
    obtain ⟨list, hlist, hroom⟩ := seq_ok hroom
    obtain ⟨found, hget, hroom⟩ := seq_ok hroom
    have hkey : load Obj.asStr h (some newKey) = .ok entry.key :=
      load_cell (rest_table hh (x := (newKey, .str entry.key)) (by simp [hn])) rfl
    obtain ⟨l, others, hat, hnodes, hback⟩ := focus_list hh ht hlist
    have hcell := rest_table hh (x := (k, .str entry.key)) (by simp [hk])
    obtain ⟨q, hget', hfound⟩ := listGet_nodes hnodes hcell hget
    -- the entry, then the list it goes to, then the others
    have hown : ∀ list : ListT, (l, Obj.list list) ::ₘ (others + (own + rest)) =
        own + (l, .list list) ::ₘ (others + rest) := fun list => by
      rw [Multiset.add_cons, add_left_comm]
    simp only [tableAddEntry, hkey, hhash, hat, hget', ok_bind]
    cases hfound with
    | null =>
      cases hroom
      refine ⟨.at (m.malloc.addr h) ⟨entry, none⟩, fun r table' hlink => ?_⟩
      obtain ⟨⟨r', nodes, list'⟩, hadd, hlink⟩ := seq_ok hlink
      obtain ⟨size, hsize, hlink⟩ := seq_ok hlink
      cases hlink
      rw [hown] at hnodes
      obtain ⟨h₁, hadd', hnodes₁⟩ := listAdd_nodes hnodes he (malloc_node hnodes _ _) hadd
      obtain ⟨h₂, hset, hh₂⟩ := setTableSize_table (hback hnodes₁) size
      exact ⟨h₂, by simp [hadd', hsize, hset], hh₂⟩
    | @entry f g s hf hw =>
      obtain ⟨⟨r₁, nodes₁, list₁⟩, hremove, hroom⟩ := seq_ok hroom
      cases hroom
      obtain ⟨h₁, hremove', hnodes₁⟩ := listRemove_nodes hnodes
        (Multiset.mem_add.mpr (.inr (Multiset.mem_add.mpr (.inr hk)))) hremove
      refine ⟨.at (m.malloc.addr h₁) ⟨entry, none⟩, fun r table' hlink => ?_⟩
      obtain ⟨⟨r', nodes, list'⟩, hadd, hlink⟩ := seq_ok hlink
      cases hlink
      rw [hown] at hnodes₁
      obtain ⟨h₂, hadd', hnodes₂⟩ := listAdd_nodes hnodes₁ he (malloc_node hnodes₁ _ _) hadd
      exact ⟨h₂, by simp [hremove', hadd'], hback hnodes₂⟩

/-- What `table_put` loses: the copy of the key when `data_dup` returns NULL,
else what `data_dup` loses. -/
def putLoss (key : CStr) (value : DataT) : List Loss :=
  if value.data = none ∨ value.datasize ≤ 0 then [.key key] else [.bytes value.datasize.toNat]

theorem putLoss_dup {value : DataT} (key : CStr)
    (hd : HashMapStorage.dataDup (some value) m = .ok copy) :
    putLoss key value = copy.elim [.key key] fun copy => [.bytes copy.datasize.toNat] := by
  obtain ⟨n, data⟩ := value
  cases data with
  | none =>
    cases hd
    simp [putLoss]
  | some source =>
    by_cases hn : n ≤ 0
    · simp only [HashMapStorage.dataDup, hn, ↓reduceIte] at hd
      cases hd
      simp [putLoss, hn]
    · simp only [HashMapStorage.dataDup, hn, ↓reduceIte, HashMapStorage.dataCreate] at hd
      obtain ⟨bytes, -, hd⟩ := seq_ok hd
      cases hd
      simp [putLoss, hn]

/-- `table_put` makes its own copies of the key and the value. -/
theorem tablePut_table {value : DataT} (hh : HoldsTable h t table rest)
    (hn : table.countLists ≠ 0) (hk : (k, .str key) ∈ rest) (hv : DataAt v value own)
    (ho : own ≤ rest) (m : ObjMem) :
    ∃ mem, ∀ r table',
      HashMapStorage.tablePut table (some key) (some value) mem = .ok (r, table') →
      ∃ h' lost, tablePut h (some t) (some k) (some v) m = .ok (r, h') ∧
        LostAt (putLoss key value) lost ∧ HoldsTable h' t table' (lost + rest) := by
  obtain ⟨arr, ht⟩ := load_table hh
  have hkey : load Obj.asStr h (some k) = .ok key := load_cell (rest_table hh hk) rfl
  obtain ⟨s, hl, hgain⟩ := HoldsTable.ledger hh
  obtain ⟨hl₁, htop₁⟩ := hl.place m.malloc (.str key)
  have hh₁ := hgain (n := {_}) hl₁ htop₁
  generalize hp : h.place m.malloc (.str key) = placed at hl₁ htop₁ hh₁
  obtain ⟨newKey, h₁⟩ := placed
  have hw : Within h₁ own := fun x hx =>
    rest_table hh₁ (Multiset.mem_add.mpr (.inr (Multiset.mem_of_le ho hx)))
  obtain ⟨s₁, hl₁', hgain₁⟩ := HoldsTable.ledger hh₁
  obtain ⟨b, hdup⟩ := dataDup_copies hv hl₁' hw m
  simp only [tablePut_eq hn]
  cases hcopy : HashMapStorage.dataDup (some value) (m.dataMem b) with
  | error f => exact ⟨⟨m.dataMem b, mallocTop ⟨⟨key, value⟩, none⟩⟩, fun r table' hr => by
      rw [hcopy] at hr
      cases hr⟩
  | ok copy =>
    obtain ⟨p, h₂, cells, lost, hdup', htop₂, hat, hlost, hl₂⟩ := hdup copy hcopy
    have hh₂ := hgain₁ hl₂ htop₂
    have hgrows := (hl.grows (t := {_}) hl₁).trans (hl₁'.grows hl₂)
    have hloss := putLoss_dup key hcopy
    cases hat with
    | null =>
      cases hlost
      refine ⟨⟨m.dataMem b, mallocTop ⟨⟨key, value⟩, none⟩⟩, fun r table' hr => ?_⟩
      rw [hcopy, ok_bind] at hr
      cases hr
      refine ⟨h₂, {(newKey, .str key)}, ?_, hloss ▸ .key newKey .nil, by simpa using hh₂⟩
      simp [tablePut, ht, hn, strdup, hkey, hp, hdup']
    | @value a copy cells hd =>
      obtain ⟨s₂, hl₂', hgain₂⟩ := HoldsTable.ledger hh₂
      obtain ⟨hl₃, htop₃⟩ := hl₂'.place m.malloc (.entry ⟨some newKey, some a⟩)
      have hh₃ := hgain₂ (n := {_}) hl₃ htop₃
      have hgrows₃ := hgrows.trans (hl₂'.grows (t := {_}) hl₃)
      generalize hp₃ : h₂.place m.malloc (.entry ⟨some newKey, some a⟩) = placed
        at hl₃ htop₃ hh₃ hgrows₃
      obtain ⟨e, h₃⟩ := placed
      have hentry : EntryAt e ⟨key, copy⟩
          ((e, .entry ⟨some newKey, some a⟩) ::ₘ (newKey, .str key) ::ₘ cells) :=
        .mk newKey a hd
      have hcells : {(e, Obj.entry ⟨some newKey, some a⟩)} +
          (cells + lost + ({(newKey, .str key)} + rest)) =
          ((e, .entry ⟨some newKey, some a⟩) ::ₘ (newKey, .str key) ::ₘ cells) +
            (lost + rest) := by
        simp only [← Multiset.singleton_add]
        abel
      rw [hcells] at hh₃
      have hnew : (newKey, .str key) ∈
          ((e, .entry ⟨some newKey, some a⟩) ::ₘ (newKey, .str key) ::ₘ cells : Cells Obj) := by
        simp
      obtain ⟨node, hadd⟩ := tableAddEntry_table hh₃ (load_grows hgrows₃ ht) hentry hnew
        (Multiset.mem_add.mpr (.inr hk)) m
      refine ⟨⟨m.dataMem b, node⟩, fun r table' hr => ?_⟩
      rw [hcopy, ok_bind] at hr
      obtain ⟨h₄, hadd', hh₄⟩ := hadd r table' hr
      refine ⟨h₄, lost, ?_, hloss ▸ hlost, hh₄⟩
      simp [tablePut, ht, hn, strdup, hkey, hp, hdup', entryCreate, hp₃, hadd']

end Objects

end HashMapStorage

import HashMapStorage.Objects
import Mathlib.Tactic.Abel

/-!
# What the objects of the storage hold

`DataAt`, `EntryAt` and `NodeAt` say which blocks a value, an entry and a node
of the model of values and lists are in memory. `HoldsNodes h view rest`: the
heap `h` holds the nodes of `view` with all that belongs to them, and the
blocks `rest` beside. Each function of the list is shown to do to the objects
what it does to the nodes, and to leave `rest` alone.
-/

namespace HashMapStorage

open Machine

inductive DataAt (a : Nat) : DataT → Cells Obj → Prop
  | null (n : Int) : DataAt a ⟨n, none⟩ {(a, .data ⟨n, none⟩)}
  | block (n : Int) (b : Nat) (bytes : List UInt8) :
    DataAt a ⟨n, some bytes⟩ ((a, .data ⟨n, some b⟩) ::ₘ {(b, .bytes bytes)})

inductive EntryAt (a : Nat) : EntryT → Cells Obj → Prop
  | mk (k v : Nat) (hv : DataAt v value s) :
    EntryAt a ⟨key, value⟩ ((a, .entry ⟨some k, some v⟩) ::ₘ (k, .str key) ::ₘ s)

inductive NodeAt : Nat × NodeT → Cells Obj → Prop
  | mk (a e : Nat) (he : EntryAt e entrada s) :
    NodeAt (a, ⟨entrada, proximo⟩) ((a, .node ⟨some e, proximo⟩) ::ₘ s)

/-- The nodes of `view` are in `h`, beside the blocks `rest` and nothing else. -/
def HoldsNodes (h : Heap Obj) (view : Heap NodeT) (rest : Cells Obj) : Prop :=
  ∃ s, Carries NodeAt view s ∧ Ledger h (s + rest) ∧ view.top ≤ h.top

/-- A block that nothing points to any more. -/
inductive Loss
  | bytes (size : Nat)
  | key (key : CStr)

inductive LostAt : List Loss → Cells Obj → Prop
  | nil : LostAt [] 0
  | bytes (b : Nat) (hb : bytes.length = n) (hl : LostAt losses s) :
    LostAt (.bytes n :: losses) ((b, .bytes bytes) ::ₘ s)
  | key (k : Nat) (hl : LostAt losses s) : LostAt (.key key :: losses) ((k, .str key) ::ₘ s)

inductive CopyAt : Ptr → Option DataT → Cells Obj → Prop
  | null : CopyAt none none 0
  | value (hd : DataAt a d s) : CopyAt (some a) (some d) s

def copyLoss : Option DataT → List Loss
  | none => []
  | some copy => [.bytes copy.datasize.toNat]

def ObjMem.dataMem (m : ObjMem) (b : Nat) : DataMem :=
  ⟨m.pad, m.pad_length, m.fill, userAddress b, Nat.mod_lt _ (by decide)⟩

inductive FoundAt (h : Heap Obj) : Ptr → Option EntryT → Prop
  | null : FoundAt h none none
  | entry (he : EntryAt e entry s) (hw : Within h s) : FoundAt h (some e) (some entry)

namespace Objects

variable {h h' : Heap Obj} {s t rest : Cells Obj} {view view' : Heap NodeT}

-- ---------------------------------------------------------------------------
-- Reading and releasing
-- ---------------------------------------------------------------------------

theorem load_cell {as : Obj → Option β} (hc : h.cell a = some o) (ho : as o = some v) :
    load as h (some a) = .ok v := by
  simp [load, Heap.load_some hc, ho]

theorem load_mem {as : Obj → Option β} (hl : Ledger h s) (ha : (a, o) ∈ s)
    (ho : as o = some v) : load as h (some a) = .ok v :=
  load_cell (hl.get ha) ho

theorem load_grows {as : Obj → Option β} (hg : h.Grows h') (hl : load as h p = .ok v) :
    load as h' p = .ok v := by
  obtain ⟨o, ho, hv⟩ := seq_ok hl
  obtain ⟨a, rfl, hc⟩ := Heap.load_ok ho
  rw [load, Heap.load_some (hg a o hc), ok_bind]
  exact hv

theorem entryKey_within (he : EntryAt e entry s) (hw : Within h s) :
    entryKey h (some e) = .ok entry.key := by
  cases he with
  | @mk value s key k v hv =>
    have hentry : load Obj.asEntry h (some e) = .ok ⟨some k, some v⟩ :=
      load_cell (hw (e, .entry _) (by simp)) rfl
    have hkey : load Obj.asStr h (some k) = .ok key := load_cell (hw (k, .str key) (by simp)) rfl
    rw [entryKey, hentry, ok_bind, hkey]

theorem dataDestroy_frees (hd : DataAt a d s) (hl : Ledger h (s + rest)) :
    ∃ h', dataDestroy h (some a) = .ok h' ∧ Ledger h' rest ∧ h.top ≤ h'.top := by
  cases hd with
  | null n =>
    have hdata : load Obj.asData h (some a) = .ok ⟨n, none⟩ :=
      load_mem hl (o := .data ⟨n, none⟩) (by simp) rfl
    rw [Multiset.singleton_add] at hl
    obtain ⟨h', hfree, hl', htop⟩ := hl.free
    refine ⟨h', ?_, hl', htop⟩
    rw [dataDestroy, hdata, ok_bind, Heap.free, pure_eq_ok, ok_bind, hfree]
  | block n b bytes =>
    have hdata : load Obj.asData h (some a) = .ok ⟨n, some b⟩ :=
      load_mem hl (o := .data ⟨n, some b⟩) (by simp) rfl
    rw [Multiset.cons_add, Multiset.singleton_add, Multiset.cons_swap] at hl
    obtain ⟨h₁, hfree₁, hl₁, htop₁⟩ := hl.free
    obtain ⟨h₂, hfree₂, hl₂, htop₂⟩ := hl₁.free
    refine ⟨h₂, ?_, hl₂, htop₁.trans htop₂⟩
    rw [dataDestroy, hdata, ok_bind, hfree₁, ok_bind, hfree₂]

theorem entryDestroy_frees (he : EntryAt e entry s) (hl : Ledger h (s + rest)) :
    ∃ h', entryDestroy h (some e) = .ok h' ∧ Ledger h' rest ∧ h.top ≤ h'.top := by
  cases he with
  | @mk value s key k v hv =>
    have hentry : load Obj.asEntry h (some e) = .ok ⟨some k, some v⟩ :=
      load_mem hl (o := .entry ⟨some k, some v⟩) (by simp) rfl
    rw [Multiset.cons_add, Multiset.cons_add, ← Multiset.add_cons, ← Multiset.add_cons] at hl
    obtain ⟨h₁, hdestroy, hl₁, htop₁⟩ := dataDestroy_frees hv hl
    rw [Multiset.cons_swap] at hl₁
    obtain ⟨h₂, hfree₂, hl₂, htop₂⟩ := hl₁.free
    obtain ⟨h₃, hfree₃, hl₃, htop₃⟩ := hl₂.free
    refine ⟨h₃, ?_, hl₃, htop₁.trans (htop₂.trans htop₃)⟩
    rw [entryDestroy, hentry, ok_bind, hdestroy, ok_bind, hfree₂, ok_bind, hfree₃]

-- ---------------------------------------------------------------------------
-- data_dup
-- ---------------------------------------------------------------------------

theorem dataCreate_makes {n : Int} (hn : 0 < n) (hl : Ledger h s) (m : ObjMem) :
    ∃ d b h', dataCreate h n m = .ok (some d, h') ∧ h.top ≤ h'.top ∧
      Ledger h' ((d, .data ⟨n, some b⟩) ::ₘ
        (b, .bytes ((List.range n.toNat).map m.fill)) ::ₘ s) := by
  obtain ⟨hl₁, htop₁⟩ := hl.malloc m.malloc
  obtain ⟨hl₂, htop₂⟩ := hl₁.place m.malloc (.bytes ((List.range n.toNat).map m.fill))
  rw [Multiset.cons_swap] at hl₂
  obtain ⟨h₃, hstore, hl₃, htop₃⟩ := hl₂.store
    (.data ⟨n, some ((h.alloc m.malloc).2.place m.malloc (.bytes _)).1⟩)
  refine ⟨_, _, h₃, ?_, htop₁.trans (htop₂.trans htop₃), hl₃⟩
  simp [dataCreate, show ¬ n ≤ 0 by omega, hstore]

theorem copyBytes_copies {h : Heap Obj} {s : Cells Obj} {m : ObjMem} {o : Obj}
    {source target result : List UInt8} {n : Nat}
    (hl : Ledger h ((d, o) ::ₘ s)) (hb : (b, .bytes source) ∈ s) (ho : o.image m = some target)
    (hcopy : memcpy target source n = .ok result) :
    ∃ h', copyBytes h (some d) (some b) n m = .ok h' ∧ h.top ≤ h'.top ∧
      Ledger h' ((d, .bytes result) ::ₘ s) := by
  have hsource : load (Obj.image m) h (some b) = .ok source :=
    load_mem hl (Multiset.mem_cons_of_mem hb) rfl
  have htarget : load (Obj.image m) h (some d) = .ok target :=
    load_mem hl (Multiset.mem_cons_self ..) ho
  obtain ⟨h', hstore, hl', htop⟩ := hl.store (.bytes result)
  refine ⟨h', ?_, htop, hl'⟩
  rw [copyBytes, hsource, ok_bind, htarget, ok_bind, hcopy, ok_bind, hstore]

/-- `data_dup` makes the copy that it makes of values, and loses the block that
came with the structure it copies to. -/
theorem dataDup_copies (hd : DataAt a d own) (hl : Ledger h s) (hw : Within h own) (m : ObjMem) :
    ∃ b, ∀ r, HashMapStorage.dataDup (some d) (m.dataMem b) = .ok r →
      ∃ p h' copy lost, dataDup h (some a) m = .ok (p, h') ∧ h.top ≤ h'.top ∧
        CopyAt p r copy ∧ LostAt (copyLoss r) lost ∧ Ledger h' (copy + lost + s) := by
  have hread : ∀ n b, (a, .data ⟨n, b⟩) ∈ own → load Obj.asData h (some a) = .ok ⟨n, b⟩ :=
    fun n b hm => load_cell (hw _ hm) rfl
  have hnone : ∀ n b, load Obj.asData h (some a) = .ok ⟨n, b⟩ → b = none ∨ n ≤ 0 →
      dataDup h (some a) m = .ok (none, h) := by
    intro n b hload hbad
    simp [dataDup, hload, hbad]
  have hzero : Ledger h (0 + 0 + s) := by simpa using hl
  cases hd with
  | null n =>
    refine ⟨0, fun r hr => ?_⟩
    cases hr
    exact ⟨none, h, 0, 0, hnone _ _ (hread n none (by simp)) (.inl rfl), Nat.le_refl _, .null,
      .nil, hzero⟩
  | block n c source =>
    have hload := hread n (some c) (by simp)
    by_cases hn : n ≤ 0
    · refine ⟨0, fun r hr => ?_⟩
      simp only [HashMapStorage.dataDup, hn, ↓reduceIte] at hr
      cases hr
      exact ⟨none, h, 0, 0, hnone _ _ hload (.inr hn), Nat.le_refl _, .null, .nil, hzero⟩
    · obtain ⟨hl₁, htop₁⟩ := hl.malloc m.malloc
      obtain ⟨d, b, h₂, hcreate, htop₂, hl₂⟩ := dataCreate_makes (n := n) (by omega) hl₁ m
      refine ⟨b, fun r hr => ?_⟩
      simp only [HashMapStorage.dataDup, hn, ↓reduceIte, HashMapStorage.dataCreate] at hr
      obtain ⟨result, hcopy, hr⟩ := seq_ok hr
      cases hr
      have hrotate : ∀ (x y z : Nat × Obj) (s : Cells Obj),
          x ::ₘ y ::ₘ z ::ₘ s = z ::ₘ x ::ₘ y ::ₘ s := by
        intro x y z s
        rw [Multiset.cons_swap y z, Multiset.cons_swap x z]
      rw [hrotate] at hl₂
      obtain ⟨h₃, hstore, hl₃, htop₃⟩ := hl₂.store (.data ⟨n, some d⟩)
      rw [Multiset.cons_swap] at hl₃
      have hsource : (c, .bytes source) ∈ s := (hl.cell _).mpr (hw _ (by simp))
      obtain ⟨h₄, hbytes, htop₄, hl₄⟩ := copyBytes_copies hl₃
        (Multiset.mem_cons_of_mem (Multiset.mem_cons_of_mem hsource)) rfl hcopy
      have hlen : ((List.range n.toNat).map m.fill).length = n.toNat := by simp
      have htop := htop₁.trans (htop₂.trans (htop₃.trans htop₄))
      refine ⟨some (h.alloc m.malloc).1, h₄, _, _, ?_, htop,
        .value (.block n d result), .bytes b hlen .nil, ?_⟩
      · simp [dataDup, hload, hn, hcreate, hstore, hbytes]
      · convert hl₄ using 1
        simp only [← Multiset.singleton_add]
        abel

-- ---------------------------------------------------------------------------
-- The nodes
-- ---------------------------------------------------------------------------

theorem focus_node (hh : HoldsNodes h view rest) (hv : view.cell a = some v) :
    ∃ e s t, EntryAt e v.entrada s ∧ Carries NodeAt (view.set a none) t ∧
      Ledger h ((a, .node ⟨some e, v.proximo⟩) ::ₘ (s + (t + rest))) := by
  obtain ⟨u, hc, hl, -⟩ := hh
  obtain ⟨own, t, hown, rfl, ht⟩ := hc.focus hv
  cases hown with
  | @mk entrada s proximo a e he =>
    refine ⟨e, s, t, he, ht, ?_⟩
    rwa [Multiset.cons_add, Multiset.cons_add, Multiset.add_assoc] at hl

theorem fill_node {w : NodeT} (ht : Carries NodeAt view t) (hv : view.cell a = none)
    (he : EntryAt e w.entrada s) (htop : view.top ≤ h.top)
    (hl : Ledger h ((a, .node ⟨some e, w.proximo⟩) ::ₘ (s + (t + rest)))) :
    HoldsNodes h (view.set a (some w)) rest := by
  have ha : a < h.top := Heap.lt_top (hl.get (Multiset.mem_cons_self ..))
  refine ⟨_, ht.fill hv (.mk a e he), ?_, Nat.max_le.mpr ⟨htop, ha⟩⟩
  rwa [Multiset.cons_add, Multiset.cons_add, Multiset.add_assoc]

theorem load_node (hh : HoldsNodes h view rest) (hv : view.cell a = some v) :
    ∃ e s, load Obj.asNode h (some a) = .ok ⟨some e, v.proximo⟩ ∧ EntryAt e v.entrada s ∧
      Within h s := by
  obtain ⟨e, s, t, he, -, hl⟩ := focus_node hh hv
  refine ⟨e, s, load_mem hl (Multiset.mem_cons_self ..) rfl, he, hl.within ?_⟩
  exact (Multiset.le_add_right s _).trans (Multiset.le_cons_self ..)

theorem fresh_node (hh : HoldsNodes h view rest) (ha : h.cell a = none) : view.cell a = none := by
  cases hv : view.cell a with
  | none => rfl
  | some v =>
    obtain ⟨e, s, t, -, -, hl⟩ := focus_node hh hv
    rw [hl.get (Multiset.mem_cons_self ..)] at ha
    cases ha

theorem setProximo_nodes (hh : HoldsNodes h view rest)
    (hs : HashMapStorage.setProximo view p q = .ok view') :
    ∃ h', setProximo h p q = .ok h' ∧ HoldsNodes h' view' rest := by
  obtain ⟨v, hload, hstore⟩ := seq_ok hs
  obtain ⟨a, rfl, hv⟩ := Heap.load_ok hload
  rw [Heap.store_some hv] at hstore
  cases hstore
  obtain ⟨e, s, t, he, ht, hl⟩ := focus_node hh hv
  obtain ⟨h', hset, hl', htop⟩ := hl.store (.node ⟨some e, q⟩)
  have ha : a < h.top := Heap.lt_top (hl.get (Multiset.mem_cons_self ..))
  obtain ⟨-, -, -, hviewtop⟩ := hh
  have hfilled : HoldsNodes h' ((view.set a none).set a (some { v with proximo := q })) rest :=
    fill_node ht (Heap.set_cell ..) he ((Nat.max_le.mpr ⟨hviewtop, ha⟩).trans htop) hl'
  rw [Heap.set_set] at hfilled
  refine ⟨h', ?_, hfilled⟩
  have hnode : load Obj.asNode h (some a) = .ok ⟨some e, v.proximo⟩ :=
    load_mem hl (Multiset.mem_cons_self ..) rfl
  rw [setProximo, hnode, ok_bind, hset]

theorem free_node (hh : HoldsNodes h view rest) (hv : view.cell a = some v) :
    ∃ e h₁ h₂, load Obj.asNode h (some a) = .ok ⟨some e, v.proximo⟩ ∧
      entryDestroy h (some e) = .ok h₁ ∧ h₁.free (some a) = .ok h₂ ∧
      HoldsNodes h₂ (view.set a none) rest := by
  obtain ⟨e, s, t, he, ht, hl⟩ := focus_node hh hv
  have hload : load Obj.asNode h (some a) = .ok ⟨some e, v.proximo⟩ :=
    load_mem hl (Multiset.mem_cons_self ..) rfl
  have ha : a < h.top := Heap.lt_top (hl.get (Multiset.mem_cons_self ..))
  rw [← Multiset.add_cons] at hl
  obtain ⟨h₁, hdestroy, hl₁, htop₁⟩ := entryDestroy_frees he hl
  obtain ⟨h₂, hfree, hl₂, htop₂⟩ := hl₁.free
  obtain ⟨-, -, -, hviewtop⟩ := hh
  refine ⟨e, h₁, h₂, hload, hdestroy, hfree, t, ht, hl₂, ?_⟩
  exact (Nat.max_le.mpr ⟨hviewtop, ha⟩).trans (htop₁.trans htop₂)

theorem rest_cell (hh : HoldsNodes h view rest) (hx : x ∈ rest) : h.cell x.1 = some x.2 := by
  obtain ⟨s, -, hl, -⟩ := hh
  exact (hl.cell x).mp (Multiset.mem_add.mpr (.inr hx))

theorem store_rest (hh : HoldsNodes h view ((a, o) ::ₘ rest)) (o' : Obj) :
    ∃ h', h.store (some a) o' = .ok h' ∧ HoldsNodes h' view ((a, o') ::ₘ rest) := by
  obtain ⟨s, hc, hl, htop⟩ := hh
  rw [Multiset.add_cons] at hl
  obtain ⟨h', hstore, hl', htop'⟩ := hl.store o'
  refine ⟨h', hstore, s, hc, ?_, htop.trans htop'⟩
  rwa [Multiset.add_cons]

-- ---------------------------------------------------------------------------
-- list_get
-- ---------------------------------------------------------------------------

theorem FoundAt.isSome (hf : FoundAt h p r) : p = none ↔ r = none := by
  cases hf <;> simp

theorem listGetLoop_nodes (hh : HoldsNodes h view rest) (hk : h.cell k = some (.str key))
    (hget : HashMapStorage.listGetLoop view key fuel p = .ok r) (hf : fuel ≤ fuel') :
    ∃ q, listGetLoop h (some k) fuel' p = .ok q ∧ FoundAt h q r := by
  induction fuel generalizing p fuel' with
  | zero => cases hget
  | succ fuel ih =>
    obtain ⟨fuel', rfl⟩ : ∃ n, fuel' = n + 1 := ⟨fuel' - 1, by omega⟩
    cases p with
    | none =>
      cases hget
      exact ⟨none, rfl, .null⟩
    | some a =>
      obtain ⟨v, hload, hget⟩ := seq_ok hget
      obtain ⟨_, ha, hv⟩ := Heap.load_ok hload
      cases ha
      obtain ⟨e, s, hnode, he, hw⟩ := load_node hh hv
      have hkey : load Obj.asStr h (some k) = .ok key := load_cell hk rfl
      simp only [listGetLoop, hnode, hkey, entryKey_within he hw, ok_bind]
      split at hget
      · rename_i heq
        cases hget
        exact ⟨some e, by simp [heq], .entry he hw⟩
      · rename_i hne
        rw [if_neg hne]
        exact ih hget (by omega)

theorem listGet_nodes (hh : HoldsNodes h view ((l, .list list) ::ₘ rest))
    (hk : h.cell k = some (.str key))
    (hget : HashMapStorage.listGet view list (some key) = .ok r) :
    ∃ q, listGet h (some l) (some k) = .ok q ∧ FoundAt h q r := by
  have hlist : load Obj.asList h (some l) = .ok list :=
    load_cell (rest_cell hh (Multiset.mem_cons_self ..)) rfl
  obtain ⟨-, -, -, htop⟩ := id hh
  obtain ⟨q, hrun, hfound⟩ := listGetLoop_nodes hh hk hget (Nat.succ_le_succ htop)
  exact ⟨q, by simp [listGet, hlist, hrun], hfound⟩

-- ---------------------------------------------------------------------------
-- list_remove
-- ---------------------------------------------------------------------------

theorem listUnlink_nodes (hh : HoldsNodes h view rest)
    (hu : HashMapStorage.listUnlink view list p = .ok (view', list')) :
    ∃ h', listUnlink h p = .ok h' ∧ HoldsNodes h' view' rest ∧ IsInt (list.size - 1) ∧
      list' = { list with size := list.size - 1 } := by
  obtain ⟨node, hnode, hu⟩ := seq_ok hu
  obtain ⟨del, hdel, hu⟩ := seq_ok hu
  obtain ⟨view₁, hset, hu⟩ := seq_ok hu
  obtain ⟨view₂, hfree, hu⟩ := seq_ok hu
  obtain ⟨size, hsize, hu⟩ := seq_ok hu
  obtain ⟨hint, rfl⟩ := checkInt_ok hsize
  cases hu
  obtain ⟨a, rfl, ha⟩ := Heap.load_ok hnode
  obtain ⟨d, hd, hcell⟩ := Heap.load_ok hdel
  rw [hd] at hfree
  obtain ⟨⟨del₁, hdel₁⟩, rfl⟩ := Heap.free_ok hfree
  obtain ⟨e, s, hload, -, -⟩ := load_node hh ha
  obtain ⟨f, t, hload', -, -⟩ := load_node hh hcell
  obtain ⟨h₁, hset₁, hh₁⟩ := setProximo_nodes hh hset
  obtain ⟨g, h₂, h₃, hload₁, hdestroy, hfree₁, hh₃⟩ := free_node hh₁ hdel₁
  refine ⟨h₃, ?_, hh₃, hint, rfl⟩
  simp only [listUnlink, hload, hd, hload', hset₁, hload₁, hdestroy, hfree₁, ok_bind]

theorem listRemoveLoop_nodes (hh : HoldsNodes h view ((l, .list list) ::ₘ rest))
    (hk : (k, .str key) ∈ rest)
    (hrun : HashMapStorage.listRemoveLoop view list key fuel p = .ok (r, view', list'))
    (hf : fuel ≤ fuel') :
    ∃ h', listRemoveLoop h (some l) list (some k) fuel' p = .ok (r, h') ∧
      HoldsNodes h' view' ((l, .list list') ::ₘ rest) := by
  induction fuel generalizing p fuel' with
  | zero => cases hrun
  | succ fuel ih =>
    obtain ⟨fuel', rfl⟩ : ∃ n, fuel' = n + 1 := ⟨fuel' - 1, by omega⟩
    have hkey : load Obj.asStr h (some k) = .ok key :=
      load_cell (rest_cell hh (Multiset.mem_cons_of_mem hk)) rfl
    obtain ⟨node, hload, hrun⟩ := seq_ok hrun
    obtain ⟨a, rfl, ha⟩ := Heap.load_ok hload
    obtain ⟨e, s, hnode, -, -⟩ := load_node hh ha
    -- both branches load the node behind and compare its key
    have hnext : ∀ next, view.load node.proximo = .ok next →
        ∃ f, load Obj.asNode h node.proximo = .ok ⟨some f, next.proximo⟩ ∧
          entryKey h (some f) = .ok next.entrada.key := by
      intro next hnext
      obtain ⟨b, hb, hcell⟩ := Heap.load_ok hnext
      obtain ⟨f, t, hload', hf, hw⟩ := load_node hh hcell
      exact ⟨f, hb ▸ hload', entryKey_within hf hw⟩
    simp only [listRemoveLoop, hnode, hkey, ok_bind]
    split at hrun
    · rename_i htail
      obtain ⟨next, hload', hrun⟩ := seq_ok hrun
      obtain ⟨f, hnode', hentry⟩ := hnext next hload'
      rw [if_pos htail]
      simp only [hnode', hentry, ok_bind]
      split at hrun
      · rename_i heq
        obtain ⟨⟨view₁, list₁⟩, hunlink, hrun⟩ := seq_ok hrun
        cases hrun
        obtain ⟨h₁, hunlink₁, hh₁, hint, rfl⟩ := listUnlink_nodes hh hunlink
        obtain ⟨h₂, hstore, hh₂⟩ := store_rest hh₁ (.list { list with size := list.size - 1 })
        exact ⟨h₂, by simp [heq, hunlink₁, checkInt_of_isInt hint, hstore], hh₂⟩
      · rename_i hne
        rw [if_neg hne]
        exact ih hrun (by omega)
    · rename_i htail
      obtain ⟨next, hload', hrun⟩ := seq_ok hrun
      obtain ⟨f, hnode', hentry⟩ := hnext next hload'
      rw [if_neg htail]
      simp only [hnode', hentry, ok_bind]
      split at hrun
      · rename_i heq
        obtain ⟨⟨view₁, list₁⟩, hunlink, hrun⟩ := seq_ok hrun
        cases hrun
        obtain ⟨h₁, hunlink₁, hh₁, hint, rfl⟩ := listUnlink_nodes hh hunlink
        obtain ⟨h₂, hstore, hh₂⟩ :=
          store_rest hh₁ (.list { list with size := list.size - 1, tail := some a })
        exact ⟨h₂, by simp [heq, hunlink₁, checkInt_of_isInt hint, hstore], hh₂⟩
      · rename_i hne
        cases hrun
        exact ⟨h, by simp [hne], hh⟩

/-- `list_remove` releases what it unlinks, and only that. -/
theorem listRemove_nodes (hh : HoldsNodes h view ((l, .list list) ::ₘ rest))
    (hk : (k, .str key) ∈ rest)
    (hrun : HashMapStorage.listRemove view list (some key) = .ok (r, view', list')) :
    ∃ h', listRemove h (some l) (some k) = .ok (r, h') ∧
      HoldsNodes h' view' ((l, .list list') ::ₘ rest) := by
  have hlist : load Obj.asList h (some l) = .ok list :=
    load_cell (rest_cell hh (Multiset.mem_cons_self ..)) rfl
  have hkey : load Obj.asStr h (some k) = .ok key :=
    load_cell (rest_cell hh (Multiset.mem_cons_of_mem hk)) rfl
  simp only [listRemove, hlist, ok_bind]
  cases hhead : list.head with
  | none =>
    simp only [HashMapStorage.listRemove, hhead] at hrun
    cases hrun
    exact ⟨h, by simp, hh⟩
  | some a =>
    simp only [HashMapStorage.listRemove, hhead] at hrun
    obtain ⟨atual, hload, hrun⟩ := seq_ok hrun
    obtain ⟨_, ha, hcell⟩ := Heap.load_ok hload
    cases ha
    split at hrun
    · rename_i heq
      obtain ⟨view₁, hfree, hrun⟩ := seq_ok hrun
      obtain ⟨size, hsize, hrun⟩ := seq_ok hrun
      obtain ⟨hint, rfl⟩ := checkInt_ok hsize
      cases hrun
      obtain ⟨-, rfl⟩ := Heap.free_ok hfree
      obtain ⟨e, s, -, he, hw⟩ := load_node hh hcell
      obtain ⟨f, h₁, h₂, hnode, hdestroy, hfree₁, hh₂⟩ := free_node hh hcell
      obtain ⟨h₃, hstore, hh₃⟩ := store_rest hh₂
        (.list { list with head := atual.proximo, size := list.size - 1 })
      have hentry : entryKey h (some f) = .ok atual.entrada.key := by
        obtain ⟨g, s, hnode', hg, hw⟩ := load_node hh hcell
        rw [hnode] at hnode'
        cases hnode'
        exact entryKey_within hg hw
      refine ⟨h₃, ?_, hh₃⟩
      simp [hnode, hentry, hkey, heq, hdestroy, hfree₁, checkInt_of_isInt hint, hstore]
    · rename_i hne
      obtain ⟨e, s, hnode, he, hw⟩ := load_node hh hcell
      obtain ⟨-, -, -, htop⟩ := id hh
      obtain ⟨h', hloop, hh'⟩ := listRemoveLoop_nodes hh hk hrun (Nat.succ_le_succ htop)
      exact ⟨h', by simp [hnode, entryKey_within he hw, hkey, hne, hloop], hh'⟩

-- ---------------------------------------------------------------------------
-- list_add
-- ---------------------------------------------------------------------------

theorem listReplaceLoop_nodes (hh : HoldsNodes h view (own + rest)) (he : EntryAt e entry own)
    (hget : HashMapStorage.listGetLoop view entry.key fuel p = .ok (some found))
    (hrun : HashMapStorage.listReplaceLoop view entry fuel p = .ok (r, view'))
    (hf : fuel ≤ fuel') :
    ∃ h', listReplaceLoop h (some e) fuel' p = .ok (r, h') ∧ HoldsNodes h' view' rest := by
  induction fuel generalizing p fuel' with
  | zero => cases hrun
  | succ fuel ih =>
    obtain ⟨fuel', rfl⟩ : ∃ n, fuel' = n + 1 := ⟨fuel' - 1, by omega⟩
    cases p with
    | none => cases hget
    | some a =>
      have hown : Within h own := fun x hx => rest_cell hh (Multiset.mem_add.mpr (.inl hx))
      obtain ⟨v, hload, hrun⟩ := seq_ok hrun
      obtain ⟨_, ha, hv⟩ := Heap.load_ok hload
      cases ha
      rw [HashMapStorage.listGetLoop, hload, ok_bind] at hget
      obtain ⟨f, s, t, hf', ht, hl⟩ := focus_node hh hv
      have hnode : load Obj.asNode h (some a) = .ok ⟨some f, v.proximo⟩ :=
        load_mem hl (Multiset.mem_cons_self ..) rfl
      have hkey : entryKey h (some f) = .ok v.entrada.key := by
        refine entryKey_within hf' (hl.within ?_)
        exact (Multiset.le_add_right s _).trans (Multiset.le_cons_self ..)
      simp only [listReplaceLoop, hnode, hkey, entryKey_within he hown, ok_bind]
      split at hrun
      · rename_i heq
        obtain ⟨view₁, hstore, hrun⟩ := seq_ok hrun
        cases hrun
        rw [Heap.store_some hv] at hstore
        cases hstore
        have ha : a < h.top := Heap.lt_top (hl.get (Multiset.mem_cons_self ..))
        rw [← Multiset.add_cons] at hl
        obtain ⟨h₁, hdestroy, hl₁, htop₁⟩ := entryDestroy_frees hf' hl
        obtain ⟨h₂, hset, hl₂, htop₂⟩ := hl₁.store (.node ⟨some e, v.proximo⟩)
        obtain ⟨-, -, -, htop⟩ := hh
        have hfilled : HoldsNodes h₂ ((view.set a none).set a (some { v with entrada := entry }))
            rest := by
          refine fill_node ht (Heap.set_cell ..) he
            ((Nat.max_le.mpr ⟨htop, ha⟩).trans (htop₁.trans htop₂)) ?_
          rwa [add_left_comm]
        rw [Heap.set_set] at hfilled
        exact ⟨h₂, by simp [heq, hdestroy, hset], hfilled⟩
      · rename_i hne
        rw [if_neg hne]
        rw [if_neg (Ne.symm hne)] at hget
        exact ih hget hrun (by omega)

theorem place_node {m : Malloc Obj} {m' : Malloc NodeT} (hh : HoldsNodes h view (own + rest))
    (he : EntryAt e entry own) (hm : m'.addr view = m.addr h) :
    HoldsNodes (h.set (m.addr h) (some (.node ⟨some e, none⟩)))
      (view.set (m.addr h) (some ⟨entry, none⟩)) rest := by
  obtain ⟨t, hc, hl, htop⟩ := hh
  obtain ⟨hl', htop'⟩ := hl.place m (.node ⟨some e, none⟩)
  refine fill_node (w := ⟨entry, none⟩) hc (hm ▸ m'.fresh view) he (htop.trans htop') ?_
  rwa [add_left_comm]

theorem listAdd_nodes {m : ObjMem} {m' : Malloc NodeT}
    (hh : HoldsNodes h view (own + (l, .list list) ::ₘ rest)) (he : EntryAt e entry own)
    (hm : m'.addr view = m.malloc.addr h)
    (hrun : HashMapStorage.listAdd view list entry m' = .ok (r, view', list')) :
    ∃ h', listAdd h (some l) (some e) m = .ok (r, h') ∧
      HoldsNodes h' view' ((l, .list list') ::ₘ rest) := by
  have hlist : load Obj.asList h (some l) = .ok list :=
    load_cell (rest_cell hh (x := (l, .list list)) (by simp)) rfl
  have hown : Within h own := fun x hx => rest_cell hh (Multiset.mem_add.mpr (.inl hx))
  obtain ⟨k, v, hentry, hkey⟩ : ∃ k v, load Obj.asEntry h (some e) = .ok ⟨some k, some v⟩ ∧
      h.cell k = some (.str entry.key) := by
    cases he with
    | @mk value s key k v hv =>
      exact ⟨k, v, load_cell (hown (e, .entry _) (by simp)) rfl, hown (k, .str key) (by simp)⟩
  obtain ⟨found, hget, hrun⟩ := seq_ok hrun
  have hh' : HoldsNodes h view ((l, .list list) ::ₘ (own + rest)) := by
    rwa [Multiset.add_cons] at hh
  obtain ⟨q, hget', hfound⟩ := listGet_nodes hh' hkey hget
  simp only [listAdd, hentry, hlist, hget', ok_bind]
  cases hfound with
  | @entry f g s hf hw =>
    obtain ⟨⟨r', view₁⟩, hreplace, hrun⟩ := seq_ok hrun
    cases hrun
    obtain ⟨-, -, -, htop⟩ := id hh
    obtain ⟨h', hloop, hh₁⟩ := listReplaceLoop_nodes hh he hget hreplace (Nat.succ_le_succ htop)
    exact ⟨h', by simp [hloop], hh₁⟩
  | null =>
    have hplaced := place_node hh he hm
    simp only [Heap.alloc, Heap.store_some (Heap.set_cell ..), Heap.set_set, hm, ok_bind] at hrun
    obtain ⟨head, tail, count⟩ := list
    cases head with
    | none =>
      obtain ⟨size, hsize, hrun⟩ := seq_ok hrun
      cases hrun
      obtain ⟨h₂, hstore, hh₂⟩ := store_rest hplaced (.list ⟨some (m.malloc.addr h), tail, size⟩)
      exact ⟨h₂, by simp [Heap.place, hsize, hstore], hh₂⟩
    | some a =>
      -- the node to link behind is the one `list->tail`, or else `list->head`, points to
      cases tail with
      | none | some b =>
        obtain ⟨view₂, hset, hrun⟩ := seq_ok hrun
        obtain ⟨size, hsize, hrun⟩ := seq_ok hrun
        cases hrun
        obtain ⟨h₂, hset₂, hh₂⟩ := setProximo_nodes hplaced hset
        obtain ⟨h₃, hstore, hh₃⟩ := store_rest hh₂
          (.list ⟨some a, some (m.malloc.addr h), size⟩)
        exact ⟨h₃, by simp [Heap.place, hset₂, hsize, hstore], hh₃⟩

-- ---------------------------------------------------------------------------
-- entry_dup
-- ---------------------------------------------------------------------------

theorem entryDup_copies (he : EntryAt e entry own) (hl : Ledger h (own + rest))
    (hv : entry.value.Valid) (hf : entry.value.datasize ≤ sizeofDataT) (m : ObjMem) :
    ∃ d b h' copy lost, entryDup h (some e) m = .ok (some d, h') ∧
      EntryAt d ⟨entry.key, entry.value.copied (m.dataMem b)⟩ copy ∧
      LostAt [.bytes entry.value.datasize.toNat] lost ∧
      Ledger h' (copy + lost + (own + rest)) := by
  cases he with
  | @mk value s key k v hd =>
    have hentry : load Obj.asEntry h (some e) = .ok ⟨some k, some v⟩ :=
      load_mem hl (o := .entry ⟨some k, some v⟩) (by simp) rfl
    obtain ⟨⟨result, h₁⟩, halloc⟩ : ∃ x, h.alloc m.malloc = x := ⟨_, rfl⟩
    obtain ⟨hl₁, -⟩ := hl.malloc m.malloc
    rw [halloc] at hl₁
    have hkey : load Obj.asStr h₁ (some k) = .ok key := load_mem hl₁ (o := .str key) (by simp) rfl
    obtain ⟨⟨k', h₂⟩, hplace⟩ : ∃ x, h₁.place m.malloc (.str key) = x := ⟨_, rfl⟩
    obtain ⟨hl₂, -⟩ := hl₁.place m.malloc (.str key)
    rw [hplace] at hl₂
    have hown : Within h₂ s := fun x hx => (hl₂.cell x).mp (by simp [hx])
    obtain ⟨b, hcopies⟩ := dataDup_copies hd hl₂ hown m
    obtain ⟨p, h₃, copy, lost, hdup, -, hcopy, hlost, hl₃⟩ := hcopies _ (dataDup_fits hv hf _)
    cases hcopy with
    | @value c _ _ hc =>
      have hfront : Ledger h₃ ((result, m.malloc.junk h) ::ₘ (k', .str key) ::ₘ
          (copy + lost + ((e, .entry ⟨some k, some v⟩) ::ₘ (k, .str key) ::ₘ s + rest))) := by
        convert hl₃ using 1
        simp only [← Multiset.singleton_add]
        abel
      obtain ⟨h₄, hstore, hl₄, -⟩ := hfront.store (.entry ⟨some k', some c⟩)
      refine ⟨result, b, h₄, _, lost, ?_, .mk k' c hc, hlost, ?_⟩
      · simp only [entryDup, hentry, halloc, strdup, hkey, hplace, ok_bind, pure_eq_ok, hdup,
          hstore]
      · convert hl₄ using 1
        simp only [← Multiset.singleton_add]
        abel

/-- A duplicated entry stays whole when the original is destroyed, and the other
way round; with both of them destroyed one block is left, as long as the value. -/
theorem entry_dup_apart {own : Cells Obj} (he : EntryAt e entry own)
    (hl : Ledger h (own + rest)) (hv : entry.value.Valid)
    (hf : entry.value.datasize ≤ sizeofDataT) (m : ObjMem) :
    ∃ d copy copied h', entryDup h (some e) m = .ok (some d, h') ∧ EntryAt d copy copied ∧
      copy.key = entry.key ∧ copy.value.datasize = entry.value.datasize ∧
      copy.value.bytes = entry.value.bytes ∧
      (∃ h₁, entryDestroy h' (some e) = .ok h₁ ∧ Within h₁ copied) ∧
      ∃ h₁ h₂ lost, entryDestroy h' (some d) = .ok h₁ ∧ Within h₁ own ∧
        entryDestroy h₁ (some e) = .ok h₂ ∧ Ledger h₂ (lost + rest) ∧
        LostAt [.bytes entry.value.datasize.toNat] lost := by
  obtain ⟨d, b, h', copied, lost, hdup, hcopy, hlost, hl'⟩ := entryDup_copies he hl hv hf m
  have horiginal : Ledger h' (own + (copied + lost + rest)) := by
    convert hl' using 1
    abel
  obtain ⟨h₁, hdestroy, hl₁, -⟩ := entryDestroy_frees he horiginal
  have hcopied : Ledger h' (copied + (own + (lost + rest))) := by
    convert hl' using 1
    abel
  obtain ⟨h₂, hdestroy', hl₂, -⟩ := entryDestroy_frees hcopy hcopied
  obtain ⟨h₃, hlast, hl₃, -⟩ := entryDestroy_frees he hl₂
  refine ⟨d, _, copied, h', hdup, hcopy, rfl, rfl, hv.copied_bytes _, ⟨h₁, hdestroy, ?_⟩,
    h₂, h₃, lost, hdestroy', ?_, hlast, hl₃, hlost⟩
  · exact hl₁.within (by rw [add_assoc]; exact Multiset.le_add_right _ _)
  · exact hl₂.within (Multiset.le_add_right _ _)

end Objects

def entryHeap : Heap Obj :=
  (((Heap.empty.set 3 (some (.bytes [98]))).set 2 (some (.data ⟨1, some 3⟩))).set 1
    (some (.str (.ofBytes [97])))).set 0 (some (.entry ⟨some 1, some 2⟩))

def freshMem : ObjMem :=
  ⟨mallocTop (.bytes []), DataMem.zero.pad, DataMem.zero.pad_length, DataMem.zero.fill⟩

theorem entry_dup_apart_small : ∃ d h' h₁ h₂ lost,
    Objects.entryDup entryHeap (some 0) freshMem = .ok (some d, h') ∧
      Objects.entryDestroy h' (some d) = .ok h₁ ∧ Objects.entryDestroy h₁ (some 0) = .ok h₂ ∧
      Ledger h₂ lost ∧ LostAt [.bytes 1] lost := by
  have he : EntryAt 0 ⟨.ofBytes [97], ⟨1, some [98]⟩⟩ _ := .mk 1 2 (.block 1 3 [98])
  have hempty : Ledger (.empty : Heap Obj) 0 := Ledger.empty
  have hthree := hempty.alloc (a := 3) (v := .bytes [98]) rfl
  have htwo := hthree.alloc (a := 2) (v := .data ⟨1, some 3⟩) rfl
  have hone := htwo.alloc (a := 1) (v := .str (.ofBytes [97])) rfl
  have hl := hone.alloc (a := 0) (v := .entry ⟨some 1, some 2⟩) rfl
  rw [← add_zero (_ ::ₘ _)] at hl
  obtain ⟨d, copy, copied, h', hdup, -, -, -, -, -, h₁, h₂, lost, hd, -, hrest, hl', hlost⟩ :=
    Objects.entry_dup_apart he hl (by decide) (by decide) freshMem
  rw [add_zero] at hl'
  exact ⟨d, h', h₁, h₂, lost, hdup, hd, hrest, hl', hlost⟩

end HashMapStorage

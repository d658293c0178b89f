import HashMapStorage.Machine.System
import HashMapStorage.TableRuns

/-!
# Two ways to a key (`table_get`, `table_put`, `table_del`)

`table_get` scans all lists, the other two look into the list the key hashes
to. They find the same entry as long as every entry is linked in its own list:
a node appended through a stale tail pointer, where another list's node lies
now, ends up behind that one.
-/

namespace HashMapStorage

open Machine

-- ---------------------------------------------------------------------------
-- The end of table_put
-- ---------------------------------------------------------------------------

def tableAddEntry (table : TableT) (entry : EntryT) (m : Malloc NodeT) : Exec (Int × TableT) := do
  let indiceLista ← hash entry.key table.countLists
  let list ← table.listAt indiceLista
  match ← listGet table.nodes list (some entry.key) with
  | some _ =>
    let (_, nodes, list) ← listRemove table.nodes list (some entry.key)
    let (_, nodes, list) ← listAdd nodes list entry m
    pure (0, table.setList indiceLista nodes list)
  | none =>
    let (_, nodes, list) ← listAdd table.nodes list entry m
    let size ← checkInt (table.size + 1)
    pure (0, { table.setList indiceLista nodes list with size })

def tableAddCopy (table : TableT) (key : CStr) (m : Malloc NodeT) :
    Option DataT → Exec (Int × TableT)
  | some copy => tableAddEntry table ⟨key, copy⟩ m
  | none => pure (-1, table)

theorem tablePut_eq (hn : table.countLists ≠ 0) (key : CStr) (value : DataT) (m : PutMem) :
    tablePut table (some key) (some value) m =
      dataDup (some value) m.data >>= tableAddCopy table key m.node := by
  simp only [tablePut, hn, ↓reduceIte]
  cases dataDup (some value) m.data with
  | error e => rfl
  | ok copy => cases copy <;> rfl

-- ---------------------------------------------------------------------------
-- Tables on which they agree
-- ---------------------------------------------------------------------------

/-- Every entry is linked in the list its key hashes to, no key twice, and the
scan finds what the list of the key holds. -/
structure TableT.Agrees (table : TableT) : Prop where
  placed : ∃ chains : List Nodes,
    List.Forall₂ (fun list xs => Linked nodeShape table.nodes list.head xs none)
      table.list chains ∧
    (∀ (i : Nat) (xs : Nodes), chains[i]? = some xs →
      ∀ x ∈ xs, hash x.2.key table.countLists = .ok i) ∧
    (keysOf chains).Nodup
  found : ∀ key, AsciiKey key → ∃ entry, tableFind table key = .ok entry ∧
    tableLookup table key = .ok entry

theorem TableT.Maps.agrees {table : TableT} (ht : table.Maps m) : table.Agrees := by
  obtain ⟨chains, hc, hb⟩ := ht.chains
  refine ⟨⟨chains, hc.lists.imp fun _ _ hx => hx.chain, fun i xs hi => (hb i xs hi).placed,
    keysOf_nodup hb⟩, fun key hk => ?_⟩
  obtain ⟨entry, hfind, hlookup, -⟩ := ht.find (hk.hashed ht.positive)
  exact ⟨entry, hfind, hlookup⟩

-- ---------------------------------------------------------------------------
-- Runs
-- ---------------------------------------------------------------------------

def TableT.step (table : TableT) (op : TableOp) : Option TableT :=
  (table.perform op).toOption.map Prod.snd

def TableOp.key : TableOp → CStr
  | .put key _ _ => key
  | .del key => key
  | .get key _ => key

/-- The list of the key holds it, or has no stale tail pointer. -/
def linkable (table : TableT) (key : CStr) : Bool :=
  match (do
    let i ← hash key table.countLists
    let list ← table.listAt i
    let entry ← listGet table.nodes list (some key)
    pure (list, entry) : Exec (ListT × Option EntryT)) with
  | .ok (list, none) => !staleTail nodeShape table.nodes list.head list.tail
  | _ => true

def TableT.linksInPlace (table : TableT) : TableOp → Bool
  | .put key value _ => value.data = none || value.datasize ≤ 0 || linkable table key
  | _ => true

theorem dataDup_ok (h : dataDup (some d) m = .ok copy) :
    copy = none ∨ (d.Valid ∧ d.datasize ≤ sizeofDataT ∧ d.data ≠ none) := by
  cases hb : d.data with
  | none =>
    simp only [dataDup, hb] at h
    cases h
    exact .inl rfl
  | some source =>
    by_cases hp : 0 < d.datasize
    · refine .inr ?_
      by_cases hs : d.datasize.toNat ≤ sizeofDataT ∧ d.datasize.toNat ≤ source.length
      · exact ⟨⟨hp, source, hb, hs.2⟩, by omega, Option.some_ne_none source⟩
      · rw [dataDup_overflows hp hb hs] at h
        cases h
    · simp only [dataDup, hb, if_pos (show d.datasize ≤ 0 by omega)] at h
      cases h
      exact .inl rfl

theorem tableAddEntry_room (h : tableAddEntry table entry m = .ok r)
    (hl : tableLookup table entry.key = .ok none) : IsInt (table.size + 1) := by
  obtain ⟨i, hi, h⟩ := seq_ok h
  obtain ⟨list, hlist, h⟩ := seq_ok h
  rw [tableLookup, hi, ok_bind, hlist, ok_bind] at hl
  rw [hl, ok_bind] at h
  dsimp only at h
  obtain ⟨⟨_, nodes, list'⟩, -, h⟩ := seq_ok h
  obtain ⟨size, hs, -⟩ := seq_ok h
  exact (checkInt_ok hs).1

theorem appendable_of_linkable (ht : TableT.Maps table m) (hk : Hashed table.countLists key)
    (hl : linkable table key = true)
    (hroom : tableLookup table key = .ok none → IsInt (table.size + 1)) :
    appendable table key = true := by
  obtain ⟨i, l, xs, hhash, -, hat, hx, -⟩ := ht.bucket hk
  have hget := listGet_holds hx key
  have hlookup : tableLookup table key = .ok (findEntry key xs) := by
    rw [tableLookup, hhash, ok_bind, hat, ok_bind, hget]
  cases hfind : findEntry key xs with
  | some e => simp [appendable, hhash, hat, hget, hfind]
  | none =>
    have hint := hroom (hlookup.trans (congrArg _ hfind))
    simpa [appendable, linkable, hhash, hat, hget, hfind, hint] using hl

theorem step_maps {table table' : TableT} {op : TableOp} (ht : table.Maps m)
    (hk : Hashed table.countLists op.key) (hl : table.linksInPlace op = true)
    (hs : table.step op = some table') :
    ∃ m', table'.Maps m' := by
  obtain ⟨⟨reply, t⟩, hrun, rfl⟩ := Option.map_eq_some_iff.mp hs
  have hrun := toOption_some.mp hrun
  cases op with
  | get key mem =>
    obtain ⟨data, -, hrun⟩ := seq_ok hrun
    cases hrun
    exact ⟨m, ht⟩
  | del key =>
    have hk : Hashed table.countLists key := hk
    obtain ⟨table', hdel, ht', -⟩ := tableDel_maps ht hk
    rw [TableT.perform, hdel, ok_bind] at hrun
    cases hrun
    exact ⟨_, ht'⟩
  | put key value mem =>
    have hk : Hashed table.countLists key := hk
    obtain ⟨⟨result, t'⟩, hput, hrun⟩ := seq_ok hrun
    cases hrun
    have hcall := hput
    rw [tablePut_eq ht.some_list] at hcall
    obtain ⟨copy, hdup, hadd⟩ := seq_ok hcall
    cases copy with
    | none =>
      cases hadd
      exact ⟨m, ht⟩
    | some copy =>
      rcases dataDup_ok hdup with hnone | ⟨hvalid, hfits, hdata⟩
      · cases hnone
      · have hpos := hvalid.positive
        have hlink : linkable table key = true := by
          simpa [TableT.linksInPlace, hdata, show ¬ value.datasize ≤ 0 by omega] using hl
        have happ := appendable_of_linkable ht hk hlink (tableAddEntry_room hadd)
        obtain ⟨table', hput', ht', -⟩ := tablePut_maps ht hk hvalid hfits happ mem
        rw [hput'] at hput
        cases hput
        exact ⟨_, ht'⟩

/-- Whatever values are put: after any calls with ASCII keys that are defined
and link no new key through a stale tail pointer, scan and hashed lookup agree. -/
theorem scan_agrees_with_hash {table table' : TableT} {ops : List TableOp}
    (hc : tableCreate n = some table) (hk : ∀ op ∈ ops, AsciiKey op.key)
    (ha : Along TableT.step (fun t op => t.linksInPlace op = true) table ops)
    (hr : run TableT.step table ops = some table') : table'.Agrees := by
  have hstep : ∀ (t : TableT) (op : TableOp) (t' : TableT), (∃ m, t.Maps m) →
      t.linksInPlace op = true ∧ AsciiKey op.key → t.step op = some t' → ∃ m, t'.Maps m := by
    rintro t op t' ⟨m, ht⟩ ⟨hl, hkey⟩ hs
    exact step_maps ht (hkey.hashed ht.positive) hl hs
  obtain ⟨m, ht⟩ := run_keeps hstep ⟨_, tableCreate_maps hc⟩ (ha.and hk) hr
  exact ht.agrees

def emptyTable (n : Nat) : TableT where
  list := List.replicate n listCreate
  size := 0
  countLists := n
  counted := by rw [List.length_replicate]
  nodes := .empty

/-- "b" and "d" go into the first of two lists, "a" and "c" into the second. Then "a"
is put again, and "d" is deleted. -/
def spread : List TableOp :=
  [.put (charKey 97) (byteValue 1) (nodeAt 1), .put (charKey 98) (byteValue 2) (nodeAt 2),
    .put (charKey 99) (byteValue 3) (nodeAt 3), .put (charKey 100) (byteValue 4) (nodeAt 4),
    .put (charKey 97) (byteValue 5) (nodeAt 5), .del (charKey 100), .get (charKey 99) .zero]

theorem scan_agrees_with_hash_spread : ∃ table,
    run TableT.step (emptyTable 2) spread = some table ∧ table.Agrees := by
  have hdefined : (run TableT.step (emptyTable 2) spread).isSome := by decide +kernel
  obtain ⟨table, hr⟩ := Option.isSome_iff_exists.mp hdefined
  have hkeys : ∀ op ∈ spread, AsciiKey op.key := by decide +kernel
  have ha : Along TableT.step (fun t op => t.linksInPlace op = true) (emptyTable 2) spread := by
    decide +kernel
  exact ⟨table, hr, scan_agrees_with_hash (n := 2) rfl hkeys ha hr⟩

/-- The second list gets "a" and "c" and loses both; the first list gets "b",
where the node of "c" was, and the second list "e" and "g". -/
def misplacing : List TableOp :=
  [.put (charKey 97) (byteValue 1) (nodeAt 1), .put (charKey 99) (byteValue 2) (nodeAt 2),
    .del (charKey 97), .del (charKey 99), .put (charKey 98) (byteValue 3) (nodeAt 2),
    .put (charKey 101) (byteValue 4) (nodeAt 3), .put (charKey 103) (byteValue 5) (nodeAt 4)]

/-- "g" is linked behind "b", in the other list: `table_get` finds it, the list
it hashes to does not hold it. No freed node is written. -/
theorem misplacing_disagrees : tableCreate 2 = some (emptyTable 2) ∧
    (∀ op ∈ misplacing, AsciiKey op.key) ∧
    ∃ table, run TableT.step (emptyTable 2) misplacing = some table ∧ ¬ table.Agrees := by
  refine ⟨rfl, by decide +kernel, ?_⟩
  have hview : (run TableT.step (emptyTable 2) misplacing).map (fun table =>
      ((tableFind table (charKey 103)).toOption.map Option.isSome,
        (tableLookup table (charKey 103)).toOption.map Option.isSome)) =
      some (some true, some false) := by
    decide +kernel
  obtain ⟨table, hr, hview⟩ := Option.map_eq_some_iff.mp hview
  refine ⟨table, hr, fun h => ?_⟩
  obtain ⟨entry, hfind, hlookup⟩ := h.found (charKey 103) (by decide +kernel)
  rw [hfind, hlookup, Prod.mk.injEq] at hview
  have hboth := hview.1.symm.trans hview.2
  nomatch hboth

end HashMapStorage

import HashMapStorage.Lookup

/-!
# The room for the keys (`table_get_keys`)

`table_get_keys` allocates by the size of the table and fills by the sizes of
its lists; `list_get_keys` allocates by the size of a list and fills by its
chain. The counters agree as long as every entry is linked in its own list: a
node linked behind another list's is counted here and met there.
-/

namespace HashMapStorage

open Machine

/-- The counters bound what is written: the lists' sizes add up to the table's,
no list links more nodes than it counts, and the two enumerations stay inside
their arrays, the table's being filled exactly. -/
structure TableT.KeysFit (table : TableT) : Prop where
  nonneg : 0 ≤ table.size
  total : table.size = (table.list.map ListT.size).sum
  linked : ∀ list ∈ table.list, ∃ xs, Linked nodeShape table.nodes list.head xs none ∧
    (xs.length : Int) ≤ list.size
  lists : ∀ list ∈ table.list, Defined (listGetKeys table.nodes list)
  keys : ∃ keys : List CStr, tableGetKeys table = .ok (keys.map .str ++ [.null]) ∧
    table.size = keys.length

theorem TableT.Maps.keysFit {table : TableT} (ht : table.Maps m) (hs : table.size < intMax) :
    table.KeysFit := by
  obtain ⟨chains, hc, -⟩ := ht.chains
  have hsize := hc.size
  have hcounts : ∀ list ∈ table.list, ∃ xs, ListT.Counts table.nodes list xs := by
    intro list hl
    obtain ⟨i, hi, rfl⟩ := List.mem_iff_getElem.mp hl
    exact ⟨_, hc.lists.get hi (hc.lists.length_eq ▸ hi)⟩
  refine ⟨by omega, ht.size, fun list hl => ?_, fun list hl => ?_,
    keysOf chains, tableGetKeys_chained hc hs, hsize⟩
  · obtain ⟨xs, hx⟩ := hcounts list hl
    exact ⟨xs, hx.chain, Int.le_of_eq hx.size.symm⟩
  · obtain ⟨xs, hx⟩ := hcounts list hl
    have hle := chain_length_le hc.lists hl
    have hcount := hx.size
    have hint : IsInt (list.size + 1) := by
      simp only [IsInt, intMin, intMax] at hs ⊢
      omega
    exact ⟨_, listGetKeys_counts hx hint⟩

-- ---------------------------------------------------------------------------
-- Counting up
-- ---------------------------------------------------------------------------

/-- A value put under a new key leaves the table with fewer than `INT_MAX` keys:
the array has one slot more. -/
def TableT.countable (table : TableT) : TableOp → Bool
  | .put key value _ =>
    value.data = none || value.datasize ≤ 0 || tableLookup table key != .ok none ||
      table.size + 1 < intMax
  | _ => true

theorem tableAddEntry_size (h : tableAddEntry table entry m = .ok (reply, table')) :
    table'.size = if tableLookup table entry.key = .ok none then table.size + 1
      else table.size := by
  obtain ⟨i, hi, h⟩ := seq_ok h
  obtain ⟨list, hlist, h⟩ := seq_ok h
  obtain ⟨found, hget, h⟩ := seq_ok h
  rw [tableLookup, hi, ok_bind, hlist, ok_bind, hget]
  cases found with
  | none =>
    obtain ⟨⟨_, nodes, list'⟩, -, h⟩ := seq_ok h
    obtain ⟨size, hs, h⟩ := seq_ok h
    cases h
    exact (checkInt_ok hs).2
  | some e =>
    obtain ⟨⟨_, nodes, list'⟩, -, h⟩ := seq_ok h
    obtain ⟨⟨_, nodes', list''⟩, -, h⟩ := seq_ok h
    cases h
    rfl

theorem tableDel_size (h : tableDel table (some key) = .ok (reply, table')) :
    table'.size ≤ table.size := by
  unfold tableDel at h
  dsimp only at h
  split at h
  · cases h
    exact Int.le_refl _
  · obtain ⟨i, -, h⟩ := seq_ok h
    obtain ⟨list, -, h⟩ := seq_ok h
    obtain ⟨found, -, h⟩ := seq_ok h
    cases found with
    | none =>
      cases h
      exact Int.le_refl _
    | some e =>
      obtain ⟨⟨_, nodes, list'⟩, -, h⟩ := seq_ok h
      obtain ⟨size, hs, h⟩ := seq_ok h
      cases h
      have hsize := (checkInt_ok hs).2
      dsimp only
      omega

theorem step_size_lt {table table' : TableT} {op : TableOp} (hn : table.countLists ≠ 0)
    (hlt : table.size < intMax) (hc : table.countable op = true)
    (hs : table.step op = some table') : table'.size < intMax := by
  obtain ⟨⟨reply, t⟩, hrun, rfl⟩ := Option.map_eq_some_iff.mp hs
  have hrun := toOption_some.mp hrun
  cases op with
  | get key mem =>
    obtain ⟨data, -, hrun⟩ := seq_ok hrun
    cases hrun
    exact hlt
  | del key =>
    obtain ⟨⟨result, t'⟩, hdel, hrun⟩ := seq_ok hrun
    cases hrun
    exact Int.lt_of_le_of_lt (tableDel_size hdel) hlt
  | put key value mem =>
    obtain ⟨⟨result, t'⟩, hput, hrun⟩ := seq_ok hrun
    cases hrun
    rw [tablePut_eq hn] at hput
    obtain ⟨copy, hdup, hadd⟩ := seq_ok hput
    cases copy with
    | none =>
      cases hadd
      exact hlt
    | some copy =>
      rcases dataDup_ok hdup with hnone | ⟨hvalid, -, hdata⟩
      · cases hnone
      · have hpos := hvalid.positive
        have hsize := tableAddEntry_size hadd
        dsimp only at hsize ⊢
        rw [hsize]
        split
        · rename_i habsent
          simpa [TableT.countable, hdata, show ¬ value.datasize ≤ 0 by omega, habsent] using hc
        · exact hlt

-- ---------------------------------------------------------------------------
-- Runs
-- ---------------------------------------------------------------------------

/-- After any calls with ASCII keys that are defined, link no new key through a
stale tail pointer and leave the keys countable, the enumerations stay inside
their arrays. -/
theorem keys_fit {table table' : TableT} {ops : List TableOp}
    (hc : tableCreate n = some table) (hk : ∀ op ∈ ops, AsciiKey op.key)
    (ha : Along TableT.step (fun t op => t.linksInPlace op = true ∧ t.countable op = true)
      table ops)
    (hr : run TableT.step table ops = some table') : table'.KeysFit := by
  have hstep : ∀ (t : TableT) (op : TableOp) (t' : TableT),
      (∃ m, t.Maps m) ∧ t.size < intMax →
      (t.linksInPlace op = true ∧ t.countable op = true) ∧ AsciiKey op.key →
      t.step op = some t' → (∃ m, t'.Maps m) ∧ t'.size < intMax := by
    rintro t op t' ⟨⟨m, ht⟩, hlt⟩ ⟨⟨hl, hcount⟩, hkey⟩ hs
    exact ⟨step_maps ht (hkey.hashed ht.positive) hl hs, step_size_lt ht.some_list hlt hcount hs⟩
  have hempty : table.size < intMax := by
    unfold tableCreate at hc
    split at hc
    · cases hc
    · cases hc
      exact (by decide : (0 : Int) < intMax)
  obtain ⟨⟨m, ht⟩, hlt⟩ := run_keeps hstep ⟨⟨_, tableCreate_maps hc⟩, hempty⟩ (ha.and hk) hr
  exact ht.keysFit hlt

theorem keys_fit_spread : ∃ table,
    run TableT.step (emptyTable 2) spread = some table ∧ table.KeysFit := by
  have hdefined : (run TableT.step (emptyTable 2) spread).isSome := by decide +kernel
  obtain ⟨table, hr⟩ := Option.isSome_iff_exists.mp hdefined
  have hkeys : ∀ op ∈ spread, AsciiKey op.key := by decide +kernel
  have ha : Along TableT.step (fun t op => t.linksInPlace op = true ∧ t.countable op = true)
      (emptyTable 2) spread := by
    decide +kernel
  exact ⟨table, hr, keys_fit (n := 2) rfl hkeys ha hr⟩

/-- The list of "b" counts one node and links two: its array has two slots, and
the NULL goes behind them. -/
theorem misplacing_overruns : tableCreate 2 = some (emptyTable 2) ∧
    (∀ op ∈ misplacing, AsciiKey op.key) ∧
    ∃ table, run TableT.step (emptyTable 2) misplacing = some table ∧ ¬ table.KeysFit ∧
      tableGetKeys table = .error .outOfBounds := by
  refine ⟨rfl, by decide +kernel, ?_⟩
  have hview : (run TableT.step (emptyTable 2) misplacing).map (fun table =>
      (tableGetKeys table == .error .outOfBounds : Bool)) = some true := by
    decide +kernel
  obtain ⟨table, hr, hview⟩ := Option.map_eq_some_iff.mp hview
  have hkeys : tableGetKeys table = .error .outOfBounds := eq_of_beq hview
  refine ⟨table, hr, fun h => ?_, hkeys⟩
  obtain ⟨keys, hok, -⟩ := h.keys
  rw [hkeys] at hok
  cases hok

end HashMapStorage

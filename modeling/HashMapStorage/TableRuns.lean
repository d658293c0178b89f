import HashMapStorage.TableKeys

/-!
# Whole runs of the table

A run is any sequence of `table_put`, `table_del` and `table_get`, each with
its own allocator. As long as every `table_put` fits the copy it makes and
does not append through a stale tail, the run answers like the finite map and
the enumeration lists the map's keys. Otherwise a key can be lost: the tail
pointer of a list outlives the node it points to.
-/

namespace HashMapStorage

open Machine

inductive TableOp
  | put (key : CStr) (value : DataT) (mem : PutMem)
  | del (key : CStr)
  | get (key : CStr) (mem : DataMem)

inductive TableReply
  | code (result : Int)
  | value (data : Option DataT)
  deriving DecidableEq

def TableT.perform (table : TableT) : TableOp → Exec (TableReply × TableT)
  | .put key value mem => do
    let (result, table) ← tablePut table (some key) (some value) mem
    pure (.code result, table)
  | .del key => do
    let (result, table) ← tableDel table (some key)
    pure (.code result, table)
  | .get key mem => do
    let data ← tableGet table (some key) mem
    pure (.value data, table)

def TableT.run (table : TableT) : List TableOp → Exec (List TableReply × TableT)
  | [] => pure ([], table)
  | op :: ops => do
    let (reply, table) ← table.perform op
    let (replies, table) ← table.run ops
    pure (reply :: replies, table)

def TableOp.Proper : TableOp → Prop
  | .put key value _ => AsciiKey key ∧ value.Valid
  | .del key => AsciiKey key
  | .get key _ => AsciiKey key

instance : (op : TableOp) → Decidable op.Proper
  | .put key value _ => inferInstanceAs (Decidable (AsciiKey key ∧ value.Valid))
  | .del key => inferInstanceAs (Decidable (AsciiKey key))
  | .get key _ => inferInstanceAs (Decidable (AsciiKey key))

-- ---------------------------------------------------------------------------
-- The finite map
-- ---------------------------------------------------------------------------

def Contents.after (m : Contents) : TableOp → Contents
  | .put key value _ => Function.update m key (some value.bytes)
  | .del key => Function.update m key none
  | .get .. => m

/-- The map after a sequence of calls: the latest value put under each key and
not deleted since. -/
def Contents.afterAll (m : Contents) (ops : List TableOp) : Contents := ops.foldl Contents.after m

def noContents : Contents := fun _ => none

def Contents.Answers (m : Contents) : TableOp → TableReply → Prop
  | .put .., reply => reply = .code 0
  | .del key, reply => reply = .code (if (m key).isSome then 0 else -1)
  | .get key _, reply => ∃ d, reply = .value d ∧ Returns (m key) d

def Contents.AnswersAll (m : Contents) : List TableOp → List TableReply → Prop
  | [], [] => True
  | op :: ops, reply :: replies => m.Answers op reply ∧ (m.after op).AnswersAll ops replies
  | _, _ => False

-- ---------------------------------------------------------------------------
-- Runs that stay clear of the two defects
-- ---------------------------------------------------------------------------

/-- The value fits the 16 bytes it is copied to, and a new key is not appended
through a stale tail. -/
def TableT.ready (table : TableT) : TableOp → Bool
  | .put key value _ => decide (value.datasize ≤ sizeofDataT) && appendable table key
  | .del _ => true
  | .get .. => true

def TableT.runReady (table : TableT) : List TableOp → Bool
  | [] => true
  | op :: ops =>
    table.ready op &&
      match table.perform op with
      | .ok (_, table) => table.runReady ops
      | .error _ => true

def TableOp.Indexed (n : Int) : TableOp → Prop
  | .put key value _ => Hashed n key ∧ value.Valid
  | .del key => Hashed n key
  | .get key _ => Hashed n key

theorem TableOp.Proper.indexed {op : TableOp} (hp : op.Proper) (hn : 0 < n) : op.Indexed n := by
  cases op with
  | put key value mem => exact ⟨hp.1.hashed hn, hp.2⟩
  | del key => exact AsciiKey.hashed hp hn
  | get key mem => exact AsciiKey.hashed hp hn

def TableOp.Leaves (key : CStr) : TableOp → Prop
  | .put key' _ _ => key' ≠ key
  | .del key' => key' ≠ key
  | .get .. => True

instance (key : CStr) : (op : TableOp) → Decidable (op.Leaves key)
  | .put key' _ _ => inferInstanceAs (Decidable (key' ≠ key))
  | .del key' => inferInstanceAs (Decidable (key' ≠ key))
  | .get .. => isTrue trivial

theorem perform_maps {table : TableT} {op : TableOp} (ht : table.Maps m)
    (hp : op.Indexed table.countLists) (hr : table.ready op = true) :
    ∃ reply table', table.perform op = .ok (reply, table') ∧ m.Answers op reply ∧
      table'.Maps (m.after op) ∧ table'.countLists = table.countLists := by
  cases op with
  | put key value mem =>
    simp only [TableT.ready, Bool.and_eq_true, decide_eq_true_eq] at hr
    obtain ⟨table', hrun, ht', hn⟩ := tablePut_maps ht hp.1 hp.2 hr.1 hr.2 mem
    exact ⟨.code 0, table', by simp [TableT.perform, hrun], rfl, ht', hn⟩
  | del key =>
    obtain ⟨table', hrun, ht', hn⟩ := tableDel_maps ht hp
    exact ⟨_, table', by simp [TableT.perform, hrun], rfl, ht', hn⟩
  | get key mem =>
    obtain ⟨d, hrun, hd⟩ := tableGet_maps ht hp mem
    exact ⟨.value d, table, by simp [TableT.perform, hrun], ⟨d, rfl, hd⟩, ht, rfl⟩

theorem run_maps {table : TableT} {ops : List TableOp} (ht : table.Maps m)
    (hp : ∀ op ∈ ops, op.Indexed table.countLists) (hr : table.runReady ops = true) :
    ∃ replies table', table.run ops = .ok (replies, table') ∧ m.AnswersAll ops replies ∧
      table'.Maps (m.afterAll ops) ∧ table'.countLists = table.countLists := by
  induction ops generalizing table m with
  | nil => exact ⟨[], table, rfl, trivial, ht, rfl⟩
  | cons op ops ih =>
    simp only [TableT.runReady, Bool.and_eq_true] at hr
    obtain ⟨reply, table₁, hop, hreply, ht₁, hn⟩ := perform_maps ht (hp op (by simp)) hr.1
    obtain ⟨replies, table', hrun, hreplies, ht', hn'⟩ :=
      ih ht₁ (fun op' h => hn ▸ hp op' (List.mem_cons_of_mem _ h)) (by simpa [hop] using hr.2)
    exact ⟨reply :: replies, table', by simp [TableT.run, hop, hrun], ⟨hreply, hreplies⟩, ht',
      hn'.trans hn⟩

theorem afterAll_leaves {m : Contents} {ops : List TableOp} (hl : ∀ op ∈ ops, op.Leaves key) :
    m.afterAll ops key = m key := by
  induction ops generalizing m with
  | nil => rfl
  | cons op ops ih =>
    have hop := hl op (by simp)
    rw [Contents.afterAll, List.foldl_cons]
    rw [← Contents.afterAll, ih fun op' h => hl op' (List.mem_cons_of_mem _ h)]
    cases op with
    | put key' value mem => exact Function.update_of_ne (Ne.symm hop) ..
    | del key' => exact Function.update_of_ne (Ne.symm hop) ..
    | get => rfl

theorem afterAll_ascii {m : Contents} {ops : List TableOp} (hp : ∀ op ∈ ops, op.Proper)
    (hm : ∀ key, (m key).isSome → AsciiKey key) (hk : (m.afterAll ops key).isSome) :
    AsciiKey key := by
  induction ops generalizing m with
  | nil => exact hm key hk
  | cons op ops ih =>
    refine ih (fun op' h => hp op' (List.mem_cons_of_mem _ h)) (fun key' hsome => ?_) hk
    have hop := hp op (by simp)
    cases op with
    | put key₁ value mem =>
      by_cases he : key' = key₁
      · exact he ▸ hop.1
      · exact hm key' (by simpa [Contents.after, he] using hsome)
    | del key₁ =>
      by_cases he : key' = key₁
      · simp [Contents.after, he] at hsome
      · exact hm key' (by simpa [Contents.after, he] using hsome)
    | get => exact hm key' hsome

-- ---------------------------------------------------------------------------
-- A list that is emptied and filled again
-- ---------------------------------------------------------------------------

def charKey (b : UInt8) : CStr := .ofBytes [b]

def byteValue (b : UInt8) : DataT := ⟨1, some [b]⟩

def nodeAt (a : Nat) : PutMem :=
  ⟨.zero, .at a ⟨⟨.empty, byteValue 0⟩, none⟩⟩

/-- A list gets two keys, loses both and gets two more. The tail pointer still
holds address 2 when the last key is put; its node is at address `a`. -/
def refill (a : Nat) : List TableOp :=
  [.put (charKey 97) (byteValue 1) (nodeAt 1), .put (charKey 98) (byteValue 2) (nodeAt 2),
    .del (charKey 97), .del (charKey 98),
    .put (charKey 99) (byteValue 3) (nodeAt 3), .put (charKey 100) (byteValue 4) (nodeAt a)]

def refillOne : List TableOp :=
  (refill 4).take 5 ++ [.put (charKey 99) (byteValue 5) (nodeAt 1), .get (charKey 99) .zero,
    .get (charKey 98) .zero, .del (charKey 98)]

-- ---------------------------------------------------------------------------
-- The table is a finite map
-- ---------------------------------------------------------------------------

/-- The run of these calls on a new table with `n` lists answers every call as
the finite map does. -/
def MapRun (n : Int) (ops : List TableOp) : Prop :=
  ∃ table replies table', tableCreate n = some table ∧
    table.run ops = .ok (replies, table') ∧ noContents.AnswersAll ops replies

def createReady (n : Int) (ops : List TableOp) : Bool :=
  (tableCreate n).all fun table => table.runReady ops

theorem create_run_maps {ops : List TableOp} (hn : 1 ≤ n) (hp : ∀ op ∈ ops, op.Proper)
    (hr : createReady n ops = true) :
    ∃ table replies table', tableCreate n = some table ∧ table.run ops = .ok (replies, table') ∧
      noContents.AnswersAll ops replies ∧ table'.Maps (noContents.afterAll ops) := by
  obtain ⟨table, hc⟩ : ∃ table, tableCreate n = some table := ⟨_, dif_neg (by omega)⟩
  have ht := tableCreate_maps hc
  obtain ⟨replies, table', hrun, hreplies, ht', -⟩ :=
    run_maps ht (fun op h => (hp op h).indexed ht.positive) (by simpa [createReady, hc] using hr)
  exact ⟨table, replies, table', hc, hrun, hreplies, ht'⟩

theorem table_is_map {ops : List TableOp} (hn : 1 ≤ n) (hp : ∀ op ∈ ops, op.Proper)
    (hr : createReady n ops = true) : MapRun n ops := by
  obtain ⟨table, replies, table', hc, hrun, hreplies, -⟩ := create_run_maps hn hp hr
  exact ⟨table, replies, table', hc, hrun, hreplies⟩

theorem table_is_map_refillOne : MapRun 1 refillOne :=
  table_is_map (by decide) (by decide +kernel) (by decide +kernel)

def answers (n : Int) (ops : List TableOp) : Option (Exec (List TableReply)) :=
  (tableCreate n).map fun table => (table.run ops).map Prod.fst

/-- The last key is lost, without a fault when its node is where the old tail
was: `table_get` returns NULL. Elsewhere the node behind the tail pointer is
not allocated. -/
theorem refill_not_map :
    (∀ op ∈ refill 2 ++ [.get (charKey 100) .zero], op.Proper) ∧
      ¬ MapRun 1 (refill 2 ++ [.get (charKey 100) .zero]) ∧
      answers 1 (refill 4) = some (.error .dangling) := by
  refine ⟨by decide +kernel, ?_, by decide +kernel⟩
  rintro ⟨table, replies, table', hc, hrun, hreplies⟩
  have hlost : answers 1 (refill 2 ++ [.get (charKey 100) .zero]) =
      some (.ok [.code 0, .code 0, .code 0, .code 0, .code 0, .code 0, .value none]) := by
    decide +kernel
  simp only [answers, hc, hrun, Option.map_some, Except.map, Option.some.injEq,
    Except.ok.injEq] at hlost
  subst hlost
  obtain ⟨-, -, -, -, -, -, ⟨d, hd, hreturn⟩, -⟩ := hreplies
  cases hd
  obtain ⟨copy, hcopy, -⟩ := hreturn
  cases hcopy

-- ---------------------------------------------------------------------------
-- The keys of the map
-- ---------------------------------------------------------------------------

/-- After the run the enumeration is the map's keys, each once, and a NULL,
and the size is their number. -/
def KeysRun (n : Int) (ops : List TableOp) : Prop :=
  ∃ table replies table', ∃ keys : List CStr, tableCreate n = some table ∧
    table.run ops = .ok (replies, table') ∧
    tableGetKeys table' = .ok (keys.map .str ++ [.null]) ∧ keys.Nodup ∧
    tableSize table' = keys.length ∧ ∀ key, key ∈ keys ↔ (noContents.afterAll ops key).isSome

def sizeFits (n : Int) (ops : List TableOp) : Bool :=
  (tableCreate n).all fun table =>
    match table.run ops with
    | .ok (_, table) => decide (tableSize table < intMax)
    | .error _ => true

theorem table_keys_exact {ops : List TableOp} (hn : 1 ≤ n) (hp : ∀ op ∈ ops, op.Proper)
    (hr : createReady n ops = true) (hs : sizeFits n ops = true) : KeysRun n ops := by
  obtain ⟨table, replies, table', hc, hrun, -, ht'⟩ := create_run_maps hn hp hr
  have hsize : tableSize table' < intMax :=
    of_decide_eq_true (by simpa only [sizeFits, hc, hrun, Option.all_some] using hs)
  obtain ⟨keys, hkeys, hnd, hcount, hall⟩ := tableGetKeys_maps ht' hsize
    fun key hk => (afterAll_ascii (m := noContents) hp (by simp [noContents]) hk).hashed
      ht'.positive
  exact ⟨table, replies, table', keys, hc, hrun, hkeys, hnd, hcount, hall⟩

theorem table_keys_exact_refillOne : KeysRun 1 refillOne :=
  table_keys_exact (by decide) (by decide +kernel) (by decide +kernel) (by decide +kernel)

def enumeration (n : Int) (ops : List TableOp) : Option (Exec (List Slot)) :=
  (tableCreate n).map fun table => do
    let (_, table) ← table.run ops
    tableGetKeys table

/-- Two keys are counted, one is linked: the NULL of the list's own array is
copied as if it were a key. -/
theorem refill_keys_wrong :
    (∀ op ∈ refill 2, op.Proper) ∧ ¬ KeysRun 1 (refill 2) := by
  refine ⟨by decide +kernel, ?_⟩
  rintro ⟨table, replies, table', keys, hc, hrun, hkeys, -, hsize, -⟩
  have hwrong : enumeration 1 (refill 2) = some (.ok [.str (charKey 99), .null, .null]) := by
    decide +kernel
  simp only [enumeration, hc, hrun, hkeys, Option.map_some, ok_bind, Option.some.injEq,
    Except.ok.injEq] at hwrong
  match keys with
  | [] => simp at hwrong
  | [_] => simp at hwrong
  | _ :: _ :: _ => simp at hwrong

end HashMapStorage

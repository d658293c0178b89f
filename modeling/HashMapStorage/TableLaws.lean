import HashMapStorage.NodeListLaws
import HashMapStorage.Table
import Mathlib.Algebra.Order.BigOperators.Group.List

/-!
# A table as a finite map

`TableT.Maps t m`: the table `t` holds the finite map `m` from keys to bytes.
Every list holds its chain, every entry is in the list its hash names, no key
is in a list twice and the counters count. Each operation is shown to keep the
invariant and to do to the map what its name says; `table_put` needs that the
value fits the copy `data_dup` makes and that the list can be appended to.
-/

namespace HashMapStorage

open Machine

-- ---------------------------------------------------------------------------
-- Hashing
-- ---------------------------------------------------------------------------

def charSum (key : CStr) : Int := (key.bytes.map charValue).sum

/-- ASCII characters 1..127 whose sum fits an `int`. -/
structure AsciiKey (key : CStr) : Prop where
  ascii : ∀ b ∈ key.bytes, 1 ≤ b.toNat ∧ b.toNat ≤ 127
  sum : charSum key ≤ intMax

instance (key : CStr) : Decidable (AsciiKey key) :=
  decidable_of_iff ((key.bytes.all fun b => 1 ≤ b.toNat ∧ b.toNat ≤ 127) = true ∧
      charSum key ≤ intMax)
    ⟨fun ⟨ha, hs⟩ => ⟨by simpa using ha, hs⟩, fun ⟨ha, hs⟩ => ⟨by simpa using ha, hs⟩⟩

theorem hashLoop_ascii (ha : ∀ b ∈ bytes, 1 ≤ b.toNat ∧ b.toNat ≤ 127) (hc : 0 ≤ count)
    (hs : count + (bytes.map charValue).sum ≤ intMax) :
    hashLoop count bytes = .ok (count + (bytes.map charValue).sum) ∧
      0 ≤ count + (bytes.map charValue).sum := by
  induction bytes generalizing count with
  | nil => simp [hashLoop, hc]
  | cons b bytes ih =>
    have hb : charValue b = b.toNat := by
      have := ha b (by simp)
      unfold charValue
      omega
    simp only [List.map_cons, List.sum_cons, ← Int.add_assoc] at hs ⊢
    have hrest : 0 ≤ (bytes.map charValue).sum := by
      refine List.sum_nonneg fun x hx => ?_
      obtain ⟨c, hc, rfl⟩ := List.mem_map.mp hx
      have := ha c (List.mem_cons_of_mem _ hc)
      unfold charValue
      omega
    have hint : IsInt (count + charValue b) := by
      constructor
      · simp only [intMin]; omega
      · omega
    rw [hashLoop, checkInt_of_isInt hint, ok_bind]
    exact ih (fun c hc => ha c (List.mem_cons_of_mem _ hc)) (by omega) hs

def Hashed (n : Int) (key : CStr) : Prop := ∃ i : Nat, hash key n = .ok i

instance (n : Int) (key : CStr) : Decidable (Hashed n key) :=
  match h : hash key n with
  | .ok i =>
    if hi : 0 ≤ i then isTrue ⟨i.toNat, by rw [h, Int.toNat_of_nonneg hi]⟩
    else isFalse fun ⟨j, hj⟩ => by
      rw [h, Except.ok.injEq] at hj
      omega
  | .error _ => isFalse fun ⟨_, hj⟩ => by simp [h] at hj

theorem hash_lt (hh : hash key n = .ok i) (hn : 0 < n) : i < n := by
  obtain ⟨count, -, hh⟩ := seq_ok hh
  cases hh
  exact Int.tmod_lt_of_pos count hn

theorem AsciiKey.hashed (hk : AsciiKey key) (hn : 0 < n) : Hashed n key := by
  obtain ⟨hsum, hpos⟩ := hashLoop_ascii hk.ascii (Int.le_refl 0)
    (by simpa [charSum] using hk.sum)
  simp only [Int.zero_add] at hsum hpos
  refine ⟨((key.bytes.map charValue).sum % n).toNat, ?_⟩
  have := Int.emod_nonneg (key.bytes.map charValue).sum (show n ≠ 0 by omega)
  simp only [hash, hsum, ok_bind, pure_eq_ok, Int.tmod_eq_emod_of_nonneg hpos]
  congr 1
  omega

-- ---------------------------------------------------------------------------
-- The invariant
-- ---------------------------------------------------------------------------

/-- A finite map from keys to the bytes of their values. -/
abbrev Contents := CStr → Option (List UInt8)

def Stored (d : DataT) : Prop := d.Valid ∧ d.datasize ≤ sizeofDataT

/-- The entries of list `i` out of `n` are those the map has there. -/
structure Bucket (n : Int) (m : Contents) (i : Nat) (xs : Nodes) : Prop where
  placed : ∀ x ∈ xs, hash x.2.key n = .ok i
  distinct : (xs.map fun x => x.2.key).Nodup
  values : ∀ x ∈ xs, Stored x.2.value
  agrees : ∀ key, hash key n = .ok i → m key = (findEntry key xs).map fun e => e.value.bytes

structure TableT.Maps (table : TableT) (m : Contents) : Prop where
  positive : 0 < table.countLists
  buckets : ∀ i list, table.list[i]? = some list →
    ∃ xs, list.Holds table.nodes xs ∧ Bucket table.countLists m i xs
  size : table.size = (table.list.map ListT.size).sum
  fits : IsInt table.size

theorem TableT.Maps.some_list {table : TableT} (ht : table.Maps m) : table.countLists ≠ 0 := by
  have := ht.positive
  omega

theorem ListT.Holds.frame (hl : ListT.Holds h list xs)
    (hf : ∀ a ∈ addrs xs, h'.cell a = h.cell a) : ListT.Holds h' list xs :=
  ⟨hl.chain.frame hf, hl.size, hl.fits, hl.tail⟩

/-- Lists with different indices share no node: a shared node would give its
key two hashes. -/
theorem Bucket.disjoint (hx : Bucket n m i xs) (hy : Bucket n m j ys) (hij : i ≠ j)
    (hlx : ListT.Holds h list xs) (hly : ListT.Holds h list' ys) (ha : a ∈ addrs xs) :
    a ∉ addrs ys := by
  intro hb
  obtain ⟨x, hmx, rfl⟩ := List.mem_map.mp ha
  obtain ⟨y, hmy, hxy⟩ := List.mem_map.mp hb
  obtain ⟨v, hv, hix⟩ := hlx.chain.cell_of_mem (a := x.1) (b := x.2) hmx
  obtain ⟨w, hw, hiy⟩ := hly.chain.cell_of_mem (a := y.1) (b := y.2) hmy
  rw [hxy, hv] at hw
  cases hw
  have hkey : x.2 = y.2 := hix.symm.trans hiy
  have h₁ := hx.placed x hmx
  have h₂ := hy.placed y hmy
  rw [hkey, h₂] at h₁
  cases h₁
  exact hij rfl

theorem sum_set {l : List ListT} (hi : l[i]? = some x) (y : ListT) :
    ((l.set i y).map ListT.size).sum = (l.map ListT.size).sum - x.size + y.size := by
  induction l generalizing i with
  | nil => simp at hi
  | cons z l ih =>
    cases i with
    | zero =>
      simp only [List.getElem?_cons_zero, Option.some.injEq] at hi
      simp only [hi, List.set_cons_zero, List.map_cons, List.sum_cons]
      omega
    | succ i =>
      simp only [List.getElem?_cons_succ] at hi
      simp only [List.set_cons_succ, List.map_cons, List.sum_cons, ih hi]
      omega

theorem TableT.Maps.setList {table : TableT} (ht : table.Maps m)
    (hl : table.list[i]? = some l) (hx : l.Holds table.nodes xs)
    (hb : Bucket table.countLists m i xs) (hx' : l'.Holds nodes' xs')
    (hb' : Bucket table.countLists m' i xs')
    (hm : ∀ key, hash key table.countLists ≠ .ok i → m' key = m key)
    (hf : ∀ a v, a ∉ addrs xs → table.nodes.cell a = some v → nodes'.cell a = some v)
    (hsize : size' = table.size - l.size + l'.size) (hfits : IsInt size') :
    ({ table.setList i nodes' l' with size := size' } : TableT).Maps m' := by
  refine ⟨ht.positive, ?_, ?_, hfits⟩
  · intro j listj hj
    simp only [TableT.setList, Int.toNat_natCast] at hj ⊢
    by_cases hij : i = j
    · subst hij
      have hlen : i < table.list.length := (List.getElem?_eq_some_iff.mp hl).1
      simp only [List.getElem?_set_self hlen, Option.some.injEq] at hj
      subst hj
      exact ⟨xs', hx', hb'⟩
    · rw [List.getElem?_set_ne hij] at hj
      obtain ⟨ys, hy, hby⟩ := ht.buckets j listj hj
      refine ⟨ys, hy.frame fun a ha => ?_, hby.placed, hby.distinct, hby.values, ?_⟩
      · obtain ⟨v, hv⟩ := hy.chain.allocated ha
        rw [hv]
        exact hf a v (hby.disjoint hb (Ne.symm hij) hy hx ha) hv
      · intro key hk
        rw [hm key, hby.agrees key hk]
        rw [hk]
        simpa using fun e : (j : Int) = i => hij (by omega)
  · simp only [TableT.setList, Int.toNat_natCast]
    rw [hsize, ht.size, sum_set hl]

theorem TableT.Maps.bucket {table : TableT} (ht : table.Maps m)
    (hk : Hashed table.countLists key) :
    ∃ i l xs, hash key table.countLists = .ok (i : Nat) ∧ table.list[i]? = some l ∧
      table.listAt i = .ok l ∧ l.Holds table.nodes xs ∧ Bucket table.countLists m i xs := by
  obtain ⟨i, hhash⟩ := hk
  have hlen : i < table.list.length := by
    have := table.counted
    have := hash_lt hhash ht.positive
    omega
  obtain ⟨xs, hx, hb⟩ := ht.buckets i _ (List.getElem?_eq_getElem hlen)
  refine ⟨i, table.list[i], xs, hhash, List.getElem?_eq_getElem hlen, ?_, hx, hb⟩
  simp [TableT.listAt, List.getElem?_eq_getElem hlen]

theorem TableT.Maps.size_ge {table : TableT} {i : Nat} {l : ListT} (ht : table.Maps m)
    (hl : table.list[i]? = some l) : l.size ≤ table.size := by
  rw [ht.size]
  refine List.single_le_sum ?_ _ (List.mem_map_of_mem (List.mem_of_getElem? hl))
  intro size hs
  obtain ⟨l', hm, rfl⟩ := List.mem_map.mp hs
  obtain ⟨j, hj⟩ := List.mem_iff_getElem?.mp hm
  obtain ⟨xs, hx, -⟩ := ht.buckets j l' hj
  rw [hx.size]
  omega

theorem tableCreate_maps (hc : tableCreate n = some table) : table.Maps fun _ => none := by
  unfold tableCreate at hc
  split at hc
  · cases hc
  · cases hc
    refine ⟨by dsimp only; omega, ?_, ?_, (by decide : IsInt 0)⟩
    · intro i l hl
      obtain rfl := List.eq_of_mem_replicate (List.mem_of_getElem? hl)
      exact ⟨[], ⟨rfl, rfl, by decide, by simp⟩, by simp, by simp, by simp, by simp⟩
    · simp [listCreate]

-- ---------------------------------------------------------------------------
-- table_get
-- ---------------------------------------------------------------------------

/-- What `table_get` returns for what the map holds: a copy, or NULL. -/
def Returns : Option (List UInt8) → Option DataT → Prop
  | none, d => d = none
  | some bytes, d => ∃ copy, d = some copy ∧ copy.Valid ∧ copy.bytes = bytes

def tableFindLoop (h : Heap NodeT) (key : CStr) : List ListT → Exec (Option EntryT)
  | [] => pure none
  | list :: rest => do
    match ← listGet h list (some key) with
    | some entry => pure (some entry)
    | none => tableFindLoop h key rest

def tableFind (table : TableT) (key : CStr) : Exec (Option EntryT) :=
  if table.countLists = 0 then pure none else tableFindLoop table.nodes key table.list

def dupFound (m : DataMem) : Option EntryT → Exec (Option DataT)
  | some entry => dataDup (some entry.value) m
  | none => pure none

theorem tableGetLoop_find (h : Heap NodeT) (key : CStr) (m : DataMem) (ls : List ListT) :
    tableGetLoop h key m ls = tableFindLoop h key ls >>= dupFound m := by
  induction ls with
  | nil => rfl
  | cons list ls ih =>
    simp only [tableGetLoop, tableFindLoop]
    cases listGet h list (some key) with
    | error e => rfl
    | ok found =>
      cases found with
      | none => exact ih
      | some entry => rfl

theorem tableGet_find (table : TableT) (key : CStr) (m : DataMem) :
    tableGet table (some key) m = tableFind table key >>= dupFound m := by
  simp only [tableGet, tableFind]
  split
  · rfl
  · exact tableGetLoop_find ..

def tableLookup (table : TableT) (key : CStr) : Exec (Option EntryT) := do
  let indiceLista ← hash key table.countLists
  let list ← table.listAt indiceLista
  listGet table.nodes list (some key)

theorem tableFindLoop_none (hn : ∀ l ∈ ls, listGet h l (some key) = .ok none) :
    tableFindLoop h key ls = .ok none := by
  induction ls with
  | nil => rfl
  | cons l ls ih =>
    simp only [tableFindLoop, hn l (by simp), ok_bind]
    exact ih fun l' hl' => hn l' (List.mem_cons_of_mem _ hl')

theorem tableFindLoop_some (hn : ∀ l ∈ ls, listGet h l (some key) = .ok none)
    (hl : listGet h l (some key) = .ok (some e)) :
    tableFindLoop h key (ls ++ l :: ls') = .ok (some e) := by
  induction ls with
  | nil => simp only [List.nil_append, tableFindLoop, hl, ok_bind, pure_eq_ok]
  | cons l' ls ih =>
    simp only [List.cons_append, tableFindLoop, hn l' (by simp), ok_bind]
    exact ih fun l' hl' => hn l' (List.mem_cons_of_mem _ hl')

theorem Bucket.absent (hb : Bucket n m j xs) (hk : hash key n = .ok (i : Nat)) (hij : i ≠ j) :
    findEntry key xs = none := by
  refine findEntry_eq_none.mpr fun x hx he => hij ?_
  have hplaced := hb.placed x hx
  rw [he, hk] at hplaced
  cases hplaced
  rfl

/-- The scan finds what the list of the key holds. -/
theorem TableT.Maps.find {table : TableT} (ht : table.Maps m) (hk : Hashed table.countLists key) :
    ∃ entry : Option EntryT, tableFind table key = .ok entry ∧ tableLookup table key = .ok entry ∧
      (∀ e ∈ entry, Stored e.value) ∧ entry.map (fun e => e.value.bytes) = m key := by
  obtain ⟨i, l, xs, hhash, hl, hat, hx, hb⟩ := ht.bucket hk
  have hcount := ht.some_list
  have hget := listGet_holds hx key
  have hother : ∀ j l', j ≠ i → table.list[j]? = some l' →
      listGet table.nodes l' (some key) = .ok none := by
    intro j l' hji hl'
    obtain ⟨ys, hy, hby⟩ := ht.buckets j l' hl'
    rw [listGet_holds hy, hby.absent hhash (Ne.symm hji)]
  refine ⟨findEntry key xs, ?_, by rw [tableLookup, hhash, ok_bind, hat, ok_bind, hget], ?_,
    (hb.agrees key hhash).symm⟩
  · simp only [tableFind, hcount, ↓reduceIte]
    cases hfind : findEntry key xs with
    | none =>
      refine tableFindLoop_none fun l' hl' => ?_
      obtain ⟨j, hj, rfl⟩ := List.mem_iff_getElem.mp hl'
      by_cases hji : j = i
      · subst hji
        rw [List.getElem?_eq_getElem hj, Option.some.injEq] at hl
        rw [hl, hget, hfind]
      · exact hother j _ hji (List.getElem?_eq_getElem hj)
    | some e =>
      obtain ⟨hi, hli⟩ := List.getElem?_eq_some_iff.mp hl
      have hsplit : table.list = table.list.take i ++ l :: table.list.drop (i + 1) := by
        rw [← hli, ← List.drop_eq_getElem_cons hi, List.take_append_drop]
      rw [hsplit]
      refine tableFindLoop_some (fun l' hl' => ?_) (by rw [hget, hfind])
      obtain ⟨j, hj, rfl⟩ := List.mem_take_iff_getElem.mp hl'
      have hji : j ≠ i := by omega
      exact hother j _ hji (List.getElem?_eq_getElem (by omega))
  · intro e he
    obtain ⟨ys, a, zs, rfl, -, -⟩ := findEntry_split he
    exact hb.values (a, e) (by simp)

theorem tableGet_copies {table : TableT} (ht : table.Maps m) (hk : Hashed table.countLists key)
    (mem : DataMem) :
    ∃ value : Option DataT, tableGet table (some key) mem = .ok (value.map (·.copied mem)) ∧
      (∀ d ∈ value, Stored d) ∧ value.map DataT.bytes = m key := by
  obtain ⟨entry, hfind, -, hstored, hm⟩ := ht.find hk
  refine ⟨entry.map EntryT.value, ?_, ?_, by rw [← hm, Option.map_map]; rfl⟩
  · rw [tableGet_find, hfind, ok_bind]
    cases entry with
    | none => rfl
    | some e =>
      obtain ⟨hvalid, hsize⟩ := hstored e rfl
      exact dataDup_fits hvalid hsize mem
  · intro d hd
    obtain ⟨e, he, rfl⟩ := Option.mem_map.mp hd
    exact hstored e he

theorem tableGet_maps {table : TableT} (ht : table.Maps m) (hk : Hashed table.countLists key)
    (mem : DataMem) : ∃ d, tableGet table (some key) mem = .ok d ∧ Returns (m key) d := by
  obtain ⟨value, hget, hstored, hm⟩ := tableGet_copies ht hk mem
  refine ⟨_, hget, ?_⟩
  rw [← hm]
  cases value with
  | none => rfl
  | some d =>
    obtain ⟨hd, -⟩ := hstored d rfl
    exact ⟨d.copied mem, rfl, hd.copied mem, hd.copied_bytes mem⟩

theorem tableGet_unhashed {table : TableT} (ht : table.Maps m)
    (hk : ¬ Hashed table.countLists key) (mem : DataMem) :
    tableGet table (some key) mem = .ok none := by
  have hcount := ht.some_list
  have hfind : tableFind table key = .ok none := by
    simp only [tableFind, hcount, ↓reduceIte]
    refine tableFindLoop_none fun l hl => ?_
    obtain ⟨j, hj⟩ := List.mem_iff_getElem?.mp hl
    obtain ⟨xs, hx, hb⟩ := ht.buckets j l hj
    rw [listGet_holds hx, findEntry_eq_none.mpr]
    intro x hm he
    exact hk ⟨j, he ▸ hb.placed x hm⟩
  rw [tableGet_find, hfind]
  rfl

-- ---------------------------------------------------------------------------
-- table_del
-- ---------------------------------------------------------------------------

theorem findEntry_remove (hd : ((ys ++ x :: zs).map fun x : Nat × EntryT => x.2.key).Nodup)
    (key : CStr) :
    findEntry key (ys ++ zs) = if x.2.key = key then none else findEntry key (ys ++ x :: zs) := by
  simp only [List.map_append, List.map_cons, List.nodup_append, List.nodup_cons, List.mem_map,
    List.mem_cons] at hd
  by_cases hk : x.2.key = key
  · simp only [hk, ↓reduceIte, findEntry_eq_none, List.mem_append]
    rintro y (hy | hy) he
    · exact hd.2.2 y.2.key ⟨y, hy, rfl⟩ x.2.key (.inl rfl) (by rw [he, hk])
    · exact hd.2.1.1 ⟨y, hy, by rw [he, hk]⟩
  · simp [findEntry_append, hk]

theorem Bucket.remove (hb : Bucket n m i (ys ++ (a, e) :: zs)) :
    Bucket n (Function.update m e.key none) i (ys ++ zs) := by
  have hsub : (ys ++ zs).Sublist (ys ++ (a, e) :: zs) :=
    (List.sublist_cons_self _ _).append_left ys
  refine ⟨fun x hx => hb.placed x (hsub.subset hx), hb.distinct.sublist (hsub.map _),
    fun x hx => hb.values x (hsub.subset hx), fun key hk => ?_⟩
  rw [findEntry_remove hb.distinct]
  by_cases hkey : e.key = key
  · simp [hkey]
  · rw [Function.update_of_ne (Ne.symm hkey), hb.agrees key hk]
    simp [hkey]

theorem tableDel_maps {table : TableT} (ht : table.Maps m) (hk : Hashed table.countLists key) :
    ∃ table', tableDel table (some key) = .ok (if (m key).isSome then 0 else -1, table') ∧
      table'.Maps (Function.update m key none) ∧ table'.countLists = table.countLists := by
  obtain ⟨i, l, xs, hhash, hl, hat, hx, hb⟩ := ht.bucket hk
  have hcount := ht.some_list
  have hget := listGet_holds hx key
  rw [hb.agrees key hhash]
  cases hfind : findEntry key xs with
  | none =>
    refine ⟨table, ?_, ?_, rfl⟩
    · simp [tableDel, hcount, hhash, hat, hget, hfind]
    · have hnone : m key = none := by rw [hb.agrees key hhash, hfind]; rfl
      rwa [Function.update_eq_self_iff.mpr hnone.symm]
  | some e =>
    obtain ⟨ys, a, zs, rfl, rfl, hy⟩ := findEntry_split hfind
    obtain ⟨nodes', l', hrun, hx', -, hframe⟩ := listRemove_holds hx rfl hy
    have hlen : (ys ++ (a, e) :: zs).length = (ys ++ zs).length + 1 := by simp; omega
    have hone : l'.size = l.size - 1 := by
      rw [hx'.size, hx.size, hlen]
      omega
    have hfits : IsInt (table.size - 1) := by
      have hle := ht.size_ge hl
      have hint := ht.fits
      have hcount := hx.size
      simp only [IsInt, intMin, intMax] at hint ⊢
      omega
    refine ⟨{ table.setList i nodes' l' with size := table.size - 1 }, ?_, ?_, rfl⟩
    · simp [tableDel, hcount, hhash, hat, hget, hfind, hrun, checkInt_of_isInt hfits]
    · refine ht.setList hl hx hb hx' hb.remove (fun key' hne => ?_) ?_ (by omega) hfits
      · exact Function.update_of_ne (by rintro rfl; exact hne hhash) ..
      · exact fun c v hc hv => by rw [hframe c hc, hv]

-- ---------------------------------------------------------------------------
-- table_put
-- ---------------------------------------------------------------------------

theorem Bucket.add (hb : Bucket n m i xs) (a : Nat) (entry : EntryT)
    (hk : findEntry entry.key xs = none)
    (hhash : hash entry.key n = .ok (i : Nat)) (hs : Stored entry.value) :
    Bucket n (Function.update m entry.key (some entry.value.bytes)) i (xs ++ [(a, entry)]) := by
  have hnew := findEntry_eq_none.mp hk
  refine ⟨?_, ?_, ?_, fun key hkey => ?_⟩
  · intro x hx
    rcases List.mem_append.mp hx with hx | hx
    · exact hb.placed x hx
    · rw [List.mem_singleton.mp hx]
      exact hhash
  · rw [List.map_append, List.nodup_append]
    refine ⟨hb.distinct, by simp, ?_⟩
    simpa using fun _ b e hx he hk => hnew (b, e) hx (he.trans hk)
  · intro x hx
    rcases List.mem_append.mp hx with hx | hx
    · exact hb.values x hx
    · rw [List.mem_singleton.mp hx]
      exact hs
  · rw [findEntry_append]
    by_cases he : entry.key = key
    · subst he
      simp [hk]
    · rw [Function.update_of_ne (Ne.symm he), hb.agrees key hkey]
      simp [he]

/-- A new key can be linked into its list and counted. -/
def appendable (table : TableT) (key : CStr) : Bool :=
  match (do
    let i ← hash key table.countLists
    let list ← table.listAt i
    let entry ← listGet table.nodes list (some key)
    pure (list, entry) : Exec (ListT × Option EntryT)) with
  | .ok (list, none) =>
    !staleTail nodeShape table.nodes list.head list.tail && decide (IsInt (table.size + 1))
  | _ => true

theorem tablePut_maps {table : TableT} {value : DataT} (ht : table.Maps m)
    (hk : Hashed table.countLists key) (hv : value.Valid) (hs : value.datasize ≤ sizeofDataT)
    (ha : appendable table key = true) (mem : PutMem) :
    ∃ table', tablePut table (some key) (some value) mem = .ok (0, table') ∧
      table'.Maps (Function.update m key (some value.bytes)) ∧
      table'.countLists = table.countLists := by
  obtain ⟨i, l, xs, hhash, hl, hat, hx, hb⟩ := ht.bucket hk
  have hcount := ht.some_list
  have hget := listGet_holds hx key
  have hdup := dataDup_fits hv hs mem.data
  have hbytes := hv.copied_bytes mem.data
  have hstored : Stored (value.copied mem.data) := ⟨hv.copied mem.data, hs⟩
  generalize value.copied mem.data = copy at hdup hbytes hstored
  have hkey : ∀ key', hash key' table.countLists ≠ .ok (i : Nat) → key' ≠ key := by
    rintro key' hne rfl
    exact hne hhash
  cases hfind : findEntry key xs with
  | none =>
    obtain ⟨hstale, hfits⟩ : staleTail nodeShape table.nodes l.head l.tail = false ∧
        IsInt (table.size + 1) := by
      simpa [appendable, hhash, hat, hget, hfind] using ha
    have hlfits : IsInt (l.size + 1) := by
      have hle := ht.size_ge hl
      have hlen := hx.size
      simp only [IsInt, intMin, intMax] at hfits ⊢
      omega
    obtain ⟨nodes', l', hrun, hx', hframe⟩ :=
      listAdd_holds ⟨key, copy⟩ hx hfind hlfits hstale mem.node
    have hone : l'.size = l.size + 1 := by
      rw [hx'.size, hx.size]
      simp
    refine ⟨{ table.setList i nodes' l' with size := table.size + 1 }, ?_, ?_, rfl⟩
    · simp [tablePut, hcount, hdup, entryCreate, hhash, hat, hget, hfind, hrun,
        checkInt_of_isInt hfits]
    · have hbucket := hb.add (mem.node.addr table.nodes) ⟨key, copy⟩ hfind hhash
        hstored
      rw [hbytes] at hbucket
      refine ht.setList hl hx hb hx' hbucket (fun key' hne => ?_) ?_ (by omega) hfits
      · exact Function.update_of_ne (hkey key' hne) ..
      · intro c v hc hv
        rw [hframe c hc (Heap.ne_of_free hv (mem.node.fresh _)), hv]
  | some e =>
    obtain ⟨ys, a, zs, rfl, rfl, hy⟩ := findEntry_split hfind
    have habsent : findEntry e.key (ys ++ zs) = none := by
      rw [findEntry_remove hb.distinct]
      simp
    obtain ⟨nodes₁, l₁, nodes₂, l₂, hremove, hadd, hx₂, hsize, hframe⟩ :=
      listReplace_holds ⟨e.key, copy⟩ hx rfl hy habsent mem.node
    refine ⟨table.setList i nodes₂ l₂, ?_, ?_, rfl⟩
    · simp [tablePut, hcount, hdup, entryCreate, hhash, hat, hget, hfind, hremove, hadd]
    · have hbucket := hb.remove.add (mem.node.addr nodes₁) ⟨e.key, copy⟩ habsent
        hhash hstored
      rw [Function.update_idem, hbytes] at hbucket
      refine ht.setList hl hx hb hx₂ hbucket (fun key' hne => ?_) hframe (by omega) ht.fits
      exact Function.update_of_ne (hkey key' hne) ..

end HashMapStorage

import HashMapStorage.TableLaws

/-!
# The bucket index

`hash` adds up signed characters and returns C's remainder, which has the sign
of the sum. A bucket index is good exactly if no sum on the way leaves `int` and
the last one is not negative or a multiple of the number of buckets.
-/

namespace HashMapStorage

open Machine

/-- Every sum that the loop of `hash` forms is an `int`. -/
def SumsFit (key : CStr) : Prop :=
  ∀ n ≤ key.bytes.length, IsInt ((key.bytes.take n).map charValue).sum

instance (key : CStr) : Decidable (SumsFit key) :=
  inferInstanceAs (Decidable (∀ n, n ≤ _ → _))

def TableT.bucketOf (table : TableT) (key : CStr) : Exec ListT := do
  let indiceLista ← hash key table.countLists
  table.listAt indiceLista

-- ---------------------------------------------------------------------------
-- The sum
-- ---------------------------------------------------------------------------

theorem hashLoop_eq (count : Int) (bytes : List UInt8) :
    hashLoop count bytes =
      if ∀ n < bytes.length, IsInt (count + ((bytes.take (n + 1)).map charValue).sum) then
        .ok (count + (bytes.map charValue).sum)
      else .error .overflow := by
  induction bytes generalizing count with
  | nil => simp [hashLoop]
  | cons b bytes ih =>
    rw [hashLoop, checkInt]
    simp only [List.take_succ_cons, List.map_cons, List.sum_cons, List.length_cons,
      ← Int.add_assoc]
    by_cases hint : IsInt (count + charValue b)
    · rw [if_pos hint, pure_eq_ok, ok_bind, ih]
      refine if_congr ⟨fun h n hn => ?_, fun h n hn => h (n + 1) (by omega)⟩ rfl rfl
      cases n with
      | zero => simpa using hint
      | succ n => exact h n (by omega)
    · rw [if_neg hint, throw_eq_error, error_bind, if_neg]
      intro h
      simpa using hint (by simpa using h 0 (by omega))

theorem hash_eq (key : CStr) (size : Int) :
    hash key size = if SumsFit key then .ok ((charSum key).tmod size) else .error .overflow := by
  have hfit : SumsFit key ↔ ∀ n < key.bytes.length,
      IsInt (0 + ((key.bytes.take (n + 1)).map charValue).sum) := by
    refine ⟨fun h n hn => by simpa using h (n + 1) (by omega), fun h n hn => ?_⟩
    cases n with
    | zero => exact (by decide : IsInt 0)
    | succ n => simpa using h n (by omega)
  rw [hash, hashLoop_eq, ← if_congr hfit rfl rfl]
  split
  · rw [ok_bind, pure_eq_ok, Int.zero_add, charSum]
  · rfl

-- ---------------------------------------------------------------------------
-- The remainder
-- ---------------------------------------------------------------------------

theorem tmod_nonneg_iff (sum size : Int) :
    0 ≤ Int.tmod sum size ↔ 0 ≤ sum ∨ size ∣ sum := by
  constructor
  · intro h
    by_contra hnot
    obtain ⟨hneg, hdvd⟩ := not_or.mp hnot
    -- of a negative sum the remainder is that of its opposite, with the other sign
    have hopp := Int.tmod_nonneg size (show 0 ≤ -sum by omega)
    rw [Int.neg_tmod] at hopp
    exact hdvd (Int.dvd_of_tmod_eq_zero (by omega))
  · rintro (hpos | hdvd)
    · exact Int.tmod_nonneg size hpos
    · rw [Int.tmod_eq_zero_of_dvd hdvd]

theorem hashed_iff (key : CStr) (size : Int) :
    Hashed size key ↔ SumsFit key ∧ (0 ≤ charSum key ∨ size ∣ charSum key) := by
  rw [Hashed, hash_eq, ← tmod_nonneg_iff]
  by_cases hfit : SumsFit key
  · simp only [hfit, ↓reduceIte, Except.ok.injEq, true_and]
    exact ⟨fun ⟨i, hi⟩ => by omega, fun h => ⟨_, (Int.toNat_of_nonneg h).symm⟩⟩
  · simp [hfit]

theorem hashed_iff_index (hs : 0 < size) :
    Hashed size key ↔ ∃ i, hash key size = .ok i ∧ 0 ≤ i ∧ i < size := by
  constructor
  · rintro ⟨i, hi⟩
    exact ⟨i, hi, by omega, hash_lt hi hs⟩
  · rintro ⟨i, hi, hpos, -⟩
    exact ⟨i.toNat, by rw [hi, Int.toNat_of_nonneg hpos]⟩

-- ---------------------------------------------------------------------------
-- The bucket
-- ---------------------------------------------------------------------------

theorem bucketOf_defined_iff {table : TableT} (hc : 0 < table.countLists) :
    Defined (table.bucketOf key) ↔ Hashed table.countLists key := by
  constructor
  · rintro ⟨list, hrun⟩
    obtain ⟨i, hi, hat⟩ := seq_ok hrun
    have hpos : 0 ≤ i := by
      by_contra hneg
      simp only [TableT.listAt, show i < 0 by omega, ↓reduceIte] at hat
      cases hat
    exact ⟨i.toNat, by rw [hi, Int.toNat_of_nonneg hpos]⟩
  · rintro ⟨i, hi⟩
    have hlen : i < table.list.length := by
      have := table.counted
      have := hash_lt hi hc
      omega
    exact ⟨table.list[i], by simp [TableT.bucketOf, hi, TableT.listAt, hlen]⟩

theorem tableDel_bucket {table : TableT} (hc : 0 < table.countLists)
    (hk : ¬ Defined (table.bucketOf key)) : ¬ Defined (tableDel table (some key)) := by
  rintro ⟨result, hrun⟩
  simp only [tableDel, show table.countLists ≠ 0 by omega, ↓reduceIte] at hrun
  obtain ⟨i, hi, hrun⟩ := seq_ok hrun
  obtain ⟨list, hat, -⟩ := seq_ok hrun
  exact hk ⟨list, by rw [TableT.bucketOf, hi, ok_bind, hat]⟩

theorem tablePut_bucket {table : TableT} {value : DataT} (hc : 0 < table.countLists)
    (hk : ¬ Defined (table.bucketOf key)) (hv : value.Valid) (hs : value.datasize ≤ sizeofDataT)
    (mem : PutMem) : ¬ Defined (tablePut table (some key) (some value) mem) := by
  rintro ⟨result, hrun⟩
  simp only [tablePut, show table.countLists ≠ 0 by omega, ↓reduceIte,
    dataDup_fits hv hs mem.data, ok_bind, entryCreate] at hrun
  obtain ⟨i, hi, hrun⟩ := seq_ok hrun
  obtain ⟨list, hat, -⟩ := seq_ok hrun
  exact hk ⟨list, by rw [TableT.bucketOf, hi, ok_bind, hat]⟩

theorem bucket_index_iff (key : CStr) (size : Int) (hs : 1 ≤ size) :
    ((∃ i, hash key size = .ok i ∧ 0 ≤ i ∧ i < size) ∧
      ∀ table : TableT, table.countLists = size → Defined (table.bucketOf key)) ↔
      SumsFit key ∧ (0 ≤ charSum key ∨ size ∣ charSum key) := by
  rw [← hashed_iff, ← hashed_iff_index (by omega), and_iff_left_iff_imp]
  rintro hk table rfl
  exact (bucketOf_defined_iff (by omega)).mpr hk

theorem bucket_index_iff_seven :
    (∃ i, hash (.ofBytes [195, 169, 122, 122]) 7 = .ok i ∧ 0 ≤ i ∧ i < 7) ∧
      ∀ table : TableT, table.countLists = 7 →
        Defined (table.bucketOf (.ofBytes [195, 169, 122, 122])) :=
  (bucket_index_iff _ 7 (by decide)).mpr (by decide)

/-- The two bytes of an e with an acute accent add up to -148. -/
theorem accent_outside :
    hash (.ofBytes [195, 169]) 7 = .ok (-1) ∧
      ∃ table, tableCreate 7 = some table ∧
        tableDel table (some (.ofBytes [195, 169])) = .error .outOfBounds ∧
        tablePut table (some (.ofBytes [195, 169])) (some ⟨1, some [118]⟩)
          ⟨.zero, .at 4096 ⟨⟨.empty, ⟨0, none⟩⟩, none⟩⟩ = .error .outOfBounds :=
  ⟨by decide, _, rfl, rfl, rfl⟩

/-- From 16909321 of the largest characters on the sum is not an `int`. -/
theorem long_key_overflows {n : Nat} (hn : intMax < 127 * n)
    (hz : 0 ∉ List.replicate n (127 : UInt8)) (size : Int) :
    hash ⟨List.replicate n 127, hz⟩ size = .error .overflow := by
  rw [hash_eq, if_neg]
  intro hfit
  have hall := (hfit n (by simp)).2
  have hchar : charValue 127 = 127 := by decide
  simp only [List.take_replicate, min_self, List.map_replicate, List.sum_replicate, hchar,
    nsmul_eq_mul] at hall
  omega

end HashMapStorage

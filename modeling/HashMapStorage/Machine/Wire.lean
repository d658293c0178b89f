import HashMapStorage.Machine.Word

/-!
# A tagged wire format

Records with a field number and a value that is a number or bytes: numbers in
base 128, least significant group first, bytes with their length before them.
Reading a sequence of records undoes writing it.
-/

namespace Machine

def varintLoop : (fuel : Nat) → (n : Nat) → List UInt8
  | 0, _ => []
  | fuel + 1, n =>
    if n < 128 then [UInt8.ofNat n] else UInt8.ofNat (n % 128 + 128) :: varintLoop fuel (n / 128)

def varint (n : Nat) : List UInt8 := varintLoop (n + 1) n

def readVarint : List UInt8 → Option (Nat × List UInt8)
  | [] => none
  | b :: bytes =>
    if b.toNat < 128 then some (b.toNat, bytes)
    else (readVarint bytes).map fun (n, rest) => (b.toNat - 128 + 128 * n, rest)

theorem readVarint_loop (hn : n < fuel) :
    readVarint (varintLoop fuel n ++ rest) = some (n, rest) := by
  induction fuel generalizing n with
  | zero => omega
  | succ fuel ih =>
    unfold varintLoop
    split
    · rename_i hsmall
      have hb : (UInt8.ofNat n).toNat = n := by
        rw [UInt8.toNat_ofNat']
        omega
      simp [readVarint, hb, hsmall]
    · rename_i hbig
      have hb : (UInt8.ofNat (n % 128 + 128)).toNat = n % 128 + 128 := by
        rw [UInt8.toNat_ofNat']
        omega
      have hnot : ¬ n % 128 + 128 < 128 := by omega
      simp only [List.cons_append, readVarint, hb, hnot, ↓reduceIte,
        ih (show n / 128 < fuel by omega), Option.map_some, Option.some.injEq, Prod.mk.injEq,
        and_true]
      omega

theorem readVarint_varint (n : Nat) (rest : List UInt8) :
    readVarint (varint n ++ rest) = some (n, rest) := readVarint_loop (Nat.lt_succ_self n)

theorem varint_ne_nil (n : Nat) : varint n ≠ [] := by
  unfold varint varintLoop
  split <;> simp

inductive WireValue
  | number (n : Nat)
  | bytes (b : List UInt8)
  deriving DecidableEq

abbrev WireRecord := Nat × WireValue

def WireRecord.encode : WireRecord → List UInt8
  | (field, .number n) => varint (8 * field) ++ varint n
  | (field, .bytes b) => varint (8 * field + 2) ++ (varint b.length ++ b)

def readRecord (bytes : List UInt8) : Option (WireRecord × List UInt8) := do
  let (tag, bytes) ← readVarint bytes
  let (n, bytes) ← readVarint bytes
  match tag % 8 with
  | 0 => some ((tag / 8, .number n), bytes)
  | 2 => if n ≤ bytes.length then some ((tag / 8, .bytes (bytes.take n)), bytes.drop n) else none
  | _ => none

def readRecordsLoop : (fuel : Nat) → List UInt8 → Option (List WireRecord)
  | _, [] => some []
  | 0, _ :: _ => none
  | fuel + 1, b :: bytes => do
    let (r, bytes) ← readRecord (b :: bytes)
    let rs ← readRecordsLoop fuel bytes
    some (r :: rs)

def encodeRecords (rs : List WireRecord) : List UInt8 := rs.flatMap WireRecord.encode

/-- A record takes at least one byte. -/
def readRecords (bytes : List UInt8) : Option (List WireRecord) :=
  readRecordsLoop bytes.length bytes

theorem readRecord_encode (r : WireRecord) (rest : List UInt8) :
    readRecord (r.encode ++ rest) = some (r, rest) := by
  obtain ⟨field, value⟩ := r
  cases value with
  | number n =>
    have hkind : 8 * field % 8 = 0 := by omega
    have hfield : 8 * field / 8 = field := by omega
    simp [readRecord, WireRecord.encode, readVarint_varint, hkind, hfield]
  | bytes b =>
    have hkind : (8 * field + 2) % 8 = 2 := by omega
    have hfield : (8 * field + 2) / 8 = field := by omega
    simp [readRecord, WireRecord.encode, readVarint_varint, hkind, hfield]

theorem encode_ne_nil (r : WireRecord) : r.encode ≠ [] := by
  obtain ⟨field, value⟩ := r
  cases value <;> simp [WireRecord.encode, varint_ne_nil]

theorem readRecordsLoop_encode (hf : rs.length ≤ fuel) :
    readRecordsLoop fuel (encodeRecords rs) = some rs := by
  induction rs generalizing fuel with
  | nil => cases fuel <;> rfl
  | cons r rs ih =>
    cases fuel with
    | zero => simp at hf
    | succ fuel =>
      have hsplit : encodeRecords (r :: rs) = r.encode ++ encodeRecords rs := rfl
      rw [hsplit]
      cases he : r.encode with
      | nil => exact absurd he (encode_ne_nil r)
      | cons b bytes =>
        rw [List.cons_append, readRecordsLoop, ← List.cons_append, ← he, readRecord_encode]
        simp [ih (Nat.le_of_succ_le_succ hf)]

theorem readRecords_encode (rs : List WireRecord) : readRecords (encodeRecords rs) = some rs := by
  refine readRecordsLoop_encode ?_
  induction rs with
  | nil => exact Nat.zero_le _
  | cons r rs ih =>
    have := List.length_pos_iff.mpr (encode_ne_nil r)
    simp only [encodeRecords, List.flatMap_cons, List.length_append, List.length_cons] at ih ⊢
    omega

end Machine

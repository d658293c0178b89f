import HashMapStorage.Machine.Fault
import Mathlib.Data.List.TakeWhile
import Mathlib.Tactic.Ring

/-!
# Integers, bytes and strings of the machine

The language's `int` has 32 bits in two's complement, stored with the least
significant byte first; its `char` is a signed byte. Arithmetic is checked: a
result outside the type is an `overflow`. A string is its bytes before the
terminating NUL, so that equality of strings is what `strcmp` decides.
-/

namespace Machine

-- ---------------------------------------------------------------------------
-- Integers
-- ---------------------------------------------------------------------------

def intMin : Int := -2147483648
def intMax : Int := 2147483647

def IsInt (x : Int) : Prop := intMin ≤ x ∧ x ≤ intMax

instance (x : Int) : Decidable (IsInt x) := inferInstanceAs (Decidable (_ ∧ _))

def checkInt (x : Int) : Exec Int := if IsInt x then pure x else throw .overflow

theorem checkInt_of_isInt (h : IsInt x) : checkInt x = .ok x := by simp [checkInt, h]

theorem checkInt_ok (h : checkInt x = .ok y) : IsInt x ∧ y = x := by
  unfold checkInt at h
  split at h
  · rename_i hx
    cases h
    exact ⟨hx, rfl⟩
  · cases h

-- ---------------------------------------------------------------------------
-- Bytes
-- ---------------------------------------------------------------------------

def natBytes : (width : Nat) → (n : Nat) → List UInt8
  | 0, _ => []
  | width + 1, n => UInt8.ofNat n :: natBytes width (n / 256)

def bytesNat : List UInt8 → Nat
  | [] => 0
  | b :: bs => b.toNat + 256 * bytesNat bs

@[simp] theorem natBytes_length (width n : Nat) : (natBytes width n).length = width := by
  induction width generalizing n with
  | zero => rfl
  | succ width ih => simp [natBytes, ih]

theorem natBytes_getElem? (hi : i < width) :
    (natBytes width n)[i]? = some (UInt8.ofNat (n / 256 ^ i)) := by
  induction width generalizing n i with
  | zero => simp at hi
  | succ width ih =>
    cases i with
    | zero => simp [natBytes]
    | succ i =>
      rw [natBytes, List.getElem?_cons_succ, ih (by omega), Nat.div_div_eq_div_mul, pow_succ']

theorem bytesNat_natBytes (width n : Nat) : bytesNat (natBytes width n) = n % 256 ^ width := by
  induction width generalizing n with
  | zero => simp [natBytes, bytesNat, Nat.mod_one]
  | succ width ih =>
    have hb : (UInt8.ofNat n).toNat = n % 256 := by simp
    rw [natBytes, bytesNat, ih, hb, pow_succ', Nat.mod_mul]

/-- An `int` as it lies in memory. -/
def intBytes (x : Int) : List UInt8 := natBytes 4 (x % 2 ^ 32).toNat

def bytesInt (bytes : List UInt8) : Int :=
  if bytesNat bytes < 2 ^ 31 then bytesNat bytes else bytesNat bytes - 2 ^ 32

@[simp] theorem intBytes_length (x : Int) : (intBytes x).length = 4 := natBytes_length _ _

theorem bytesInt_intBytes (h : IsInt x) : bytesInt (intBytes x) = x := by
  obtain ⟨lo, hi⟩ := h
  simp only [intMin, intMax] at lo hi
  have hmod : bytesNat (intBytes x) = (x % 2 ^ 32).toNat := by
    rw [intBytes, bytesNat_natBytes]
    omega
  simp only [bytesInt, hmod]
  omega

def charValue (b : UInt8) : Int := if b.toNat < 128 then b.toNat else b.toNat - 256

/-- `memcpy`: the first `n` bytes of the block `src` go over those of the
block `dst`; both must be that long. -/
def memcpy (dst src : List UInt8) (n : Nat) : Exec (List UInt8) :=
  if n ≤ dst.length ∧ n ≤ src.length then pure (src.take n ++ dst.drop n) else throw .outOfBounds

theorem memcpy_ok (hd : n ≤ dst.length) (hs : n ≤ src.length) :
    memcpy dst src n = .ok (src.take n ++ dst.drop n) := by
  simp [memcpy, hd, hs]

theorem memcpy_error (h : ¬ (n ≤ dst.length ∧ n ≤ src.length)) :
    memcpy dst src n = .error .outOfBounds := by
  simp [memcpy, h]

-- ---------------------------------------------------------------------------
-- Strings
-- ---------------------------------------------------------------------------

/-- A string: the bytes before the terminating NUL. -/
structure CStr where
  bytes : List UInt8
  nulFree : 0 ∉ bytes
  deriving DecidableEq

namespace CStr

def empty : CStr := ⟨[], by simp⟩

def block (s : CStr) : List UInt8 := s.bytes ++ [0]

theorem ext_bytes {s t : CStr} (h : s.bytes = t.bytes) : s = t := by
  cases s
  cases t
  simpa using h

theorem first_ne_zero {s : CStr} (hs : s ≠ .empty) : ∃ b bytes, s.bytes = b :: bytes ∧ b ≠ 0 := by
  obtain ⟨b, bytes, hb⟩ := List.exists_cons_of_ne_nil fun hnil : s.bytes = [] => hs (ext_bytes hnil)
  refine ⟨b, bytes, hb, ?_⟩
  rintro rfl
  exact s.nulFree (by simp [hb])

@[simp] theorem block_length (s : CStr) : s.block.length = s.bytes.length + 1 := by simp [block]

end CStr

def CStr.ofBytes (bytes : List UInt8) : CStr :=
  ⟨bytes.takeWhile (· ≠ 0), fun h => by simpa using List.mem_takeWhile_imp h⟩

/-- The string at the start of a block: a block without a NUL is read past
its end. -/
def readStr (block : List UInt8) : Exec CStr :=
  if 0 ∈ block then pure (.ofBytes block) else throw .outOfBounds

theorem takeWhile_ne_zero {bytes : List UInt8} (h : 0 ∉ bytes) (rest : List UInt8) :
    (bytes ++ 0 :: rest).takeWhile (· ≠ 0) = bytes := by
  have hall : ∀ b ∈ bytes, decide (b ≠ 0) = true := by
    intro b hb
    simpa using fun e : b = 0 => h (e ▸ hb)
  rw [List.takeWhile_append_of_pos hall]
  simp

theorem readStr_append (s : CStr) (rest : List UInt8) : readStr (s.bytes ++ 0 :: rest) = .ok s := by
  have hmem : (0 : UInt8) ∈ s.bytes ++ 0 :: rest := by simp
  simp only [readStr, hmem, ↓reduceIte, pure_eq_ok]
  exact congrArg _ (CStr.ext_bytes (takeWhile_ne_zero s.nulFree rest))

theorem readStr_ok (h : readStr block = .ok s) : ∃ rest, block = s.bytes ++ 0 :: rest := by
  unfold readStr at h
  split at h
  · rename_i hmem
    cases h
    obtain ⟨bytes, rest, rfl, hz⟩ := List.eq_append_cons_of_mem hmem
    exact ⟨rest, congrArg (· ++ 0 :: rest) (takeWhile_ne_zero hz rest).symm⟩
  · cases h

theorem readStr_append_iff {bytes : List UInt8} (h : 0 ∉ bytes) (rest : List UInt8) :
    (∃ s, readStr (bytes ++ rest) = .ok s ∧ s.bytes = bytes) ↔ rest.head? = some 0 := by
  constructor
  · rintro ⟨s, hread, rfl⟩
    obtain ⟨behind, hsplit⟩ := readStr_ok hread
    rw [List.append_cancel_left hsplit, List.head?_cons]
  · intro hz
    obtain ⟨behind, rfl⟩ := List.head?_eq_some_iff.mp hz
    exact ⟨⟨bytes, h⟩, readStr_append ⟨bytes, h⟩ behind, rfl⟩

theorem readStr_error (h : 0 ∉ block) : readStr block = .error .outOfBounds := by
  simp [readStr, h]

theorem CStr.ofBytes_bytes (s : CStr) : CStr.ofBytes s.bytes = s := by
  refine CStr.ext_bytes (List.takeWhile_eq_self_iff.mpr fun b hb => ?_)
  simpa using fun e : b = 0 => s.nulFree (e ▸ hb)

@[simp] theorem readStr_block (s : CStr) : readStr s.block = .ok s := readStr_append s []

end Machine

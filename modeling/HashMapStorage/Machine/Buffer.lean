import HashMapStorage.Machine.Word

/-!
# Buffers of bytes

Offsets and sizes are `int`s. What is read or written must lie inside the
buffer; a negative size becomes a huge `size_t`, which does not.
-/

namespace Machine

variable {pre mid post buf bytes : List UInt8}

def Inside (buf : List UInt8) (offset size : Int) : Prop :=
  0 ≤ offset ∧ 0 ≤ size ∧ offset + size ≤ buf.length

instance (buf : List UInt8) (offset size : Int) : Decidable (Inside buf offset size) :=
  inferInstanceAs (Decidable (_ ∧ _ ∧ _))

def readAt (buf : List UInt8) (offset size : Int) : Exec (List UInt8) :=
  if Inside buf offset size then pure ((buf.drop offset.toNat).take size.toNat)
  else throw .outOfBounds

def writeAt (buf : List UInt8) (offset : Int) (bytes : List UInt8) : Exec (List UInt8) :=
  if Inside buf offset bytes.length then
    pure (buf.take offset.toNat ++ bytes ++ buf.drop (offset.toNat + bytes.length))
  else throw .outOfBounds

def intAt (buf : List UInt8) (offset : Int) : Int := bytesInt ((buf.drop offset.toNat).take 4)

def readInt (buf : List UInt8) (offset : Int) : Exec Int := do
  let bytes ← readAt buf offset 4
  pure (bytesInt bytes)

def toInt (x : Int) : Int := bytesInt (intBytes x)

theorem toInt_of_isInt (h : IsInt x) : toInt x = x := bytesInt_intBytes h

theorem readAt_inside (h : Inside buf offset size) :
    readAt buf offset size = .ok ((buf.drop offset.toNat).take size.toNat) := if_pos h

theorem readAt_outside (h : ¬ Inside buf offset size) :
    readAt buf offset size = .error .outOfBounds := if_neg h

theorem readInt_inside (h : Inside buf offset 4) : readInt buf offset = .ok (intAt buf offset) := by
  rw [readInt, readAt_inside h]
  rfl

theorem readInt_outside (h : ¬ Inside buf offset 4) :
    readInt buf offset = .error .outOfBounds := by
  rw [readInt, readAt_outside h, error_bind]

theorem take_drop_append (hp : pre.length = n) (hm : mid.length = k) :
    ((pre ++ mid ++ post).drop n).take k = mid := by
  rw [List.append_assoc, ← hp, List.drop_left, ← hm, List.take_left]

theorem intAt_append (h : IsInt x) (hp : (pre.length : Int) = offset) :
    intAt (pre ++ intBytes x ++ post) offset = x := by
  rw [intAt, take_drop_append (by omega) (intBytes_length x), bytesInt_intBytes h]

theorem writeAt_append (hp : (pre.length : Int) = offset) (hm : mid.length = bytes.length) :
    writeAt (pre ++ mid ++ post) offset bytes = .ok (pre ++ bytes ++ post) := by
  have hin : Inside (pre ++ mid ++ post) offset bytes.length := by
    simp only [Inside, List.length_append]
    omega
  have hn : offset.toNat = pre.length := by omega
  rw [writeAt, if_pos hin, hn, List.append_assoc pre mid post, List.take_left, ← hm,
    ← List.append_assoc, ← List.length_append, List.drop_left, pure_eq_ok]

theorem writeAt_end (hp : (pre.length : Int) = offset) (hm : mid.length = bytes.length) :
    writeAt (pre ++ mid) offset bytes = .ok (pre ++ bytes) := by
  have hwrite : writeAt (pre ++ mid ++ []) offset bytes = .ok (pre ++ bytes ++ []) :=
    writeAt_append hp hm
  rwa [List.append_nil, List.append_nil] at hwrite

theorem writeAt_sized (hp : (pre.length : Int) = offset) (hj : mid.length = 4 + bytes.length)
    (x : Int) :
    ∃ buf, writeAt (pre ++ mid) offset (intBytes x) = .ok buf ∧
      writeAt buf (offset + 4) bytes = .ok (pre ++ intBytes x ++ bytes) := by
  have hsplit : pre ++ mid = pre ++ mid.take 4 ++ mid.drop 4 := by simp
  refine ⟨pre ++ intBytes x ++ mid.drop 4, ?_, writeAt_end ?_ ?_⟩
  · rw [hsplit]
    exact writeAt_append hp (by simp [hj])
  · simp [hp]
  · simp [hj]

end Machine

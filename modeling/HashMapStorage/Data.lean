import HashMapStorage.Machine.Word

/-!
# Values and entries (`data.c`, `entry.c`)

A `data_t` is modelled with the block its pointer leads to, as long as it was
allocated, so that a copy past its end shows. `data_dup` takes its block from
`data_create`, which returns the structure that describes a block: what the
bytes are copied over is that structure.
-/

namespace HashMapStorage

open Machine

/-- `struct data_t`; `none` is the NULL pointer. -/
structure DataT where
  datasize : Int
  data : Option (List UInt8)
  deriving DecidableEq

/-- `sizeof(struct data_t)`: the size, four bytes of padding, the pointer. -/
def sizeofDataT : Nat := 16

/-- What `malloc` decides in one `data_create`: what the padding of the
structure and the block hold already, and where the block is (addresses of
user space have 47 bits). -/
structure DataMem where
  pad : List UInt8
  pad_length : pad.length = 4
  fill : Nat → UInt8
  block : Nat
  block_lt : block < 2 ^ 47

def DataMem.zero : DataMem := ⟨[0, 0, 0, 0], rfl, fun _ => 0, 4096, by decide⟩

def DataT.image (d : DataT) (m : DataMem) : List UInt8 :=
  intBytes d.datasize ++ m.pad ++ natBytes 8 m.block

@[simp] theorem DataT.image_length (d : DataT) (m : DataMem) :
    (d.image m).length = sizeofDataT := by
  simp [image, m.pad_length, sizeofDataT]

def dataCreate (size : Int) (m : DataMem) : Option DataT :=
  if size ≤ 0 then none
  else some ⟨size, some ((List.range size.toNat).map m.fill)⟩

def dataCreate2 (size : Int) (data : Option (List UInt8)) : Option DataT :=
  if size ≤ 0 ∨ data = none then none else some ⟨size, data⟩

def dataDup (data : Option DataT) (m : DataMem) : Exec (Option DataT) :=
  match data with
  | none => pure none
  | some d =>
    match d.data with
    | none => pure none
    | some source =>
      if d.datasize ≤ 0 then pure none
      else
        match dataCreate d.datasize m with
        | none => pure none
        | some created => do
          -- `pointer->data` is the structure just created, not its block
          let block ← memcpy (created.image m) source d.datasize.toNat
          pure (some ⟨d.datasize, some block⟩)

/-- `struct entry_t`, as `entry_create` makes it: neither pointer is NULL. -/
structure EntryT where
  key : CStr
  value : DataT
  deriving DecidableEq

def entryCreate (key : Option CStr) (data : Option DataT) : Option EntryT :=
  match key, data with
  | some key, some data => some ⟨key, data⟩
  | _, _ => none

-- ---------------------------------------------------------------------------
-- What a copy holds
-- ---------------------------------------------------------------------------

structure DataT.Valid (d : DataT) : Prop where
  positive : 0 < d.datasize
  block : ∃ block, d.data = some block ∧ d.datasize.toNat ≤ block.length

instance (d : DataT) : Decidable d.Valid :=
  decidable_of_iff
    (0 < d.datasize ∧ (d.data.any fun block => d.datasize.toNat ≤ block.length) = true)
    ⟨fun ⟨hp, hb⟩ => ⟨hp, by simpa [Option.any_eq_true] using hb⟩,
      fun ⟨hp, hb⟩ => ⟨hp, by simpa [Option.any_eq_true] using hb⟩⟩

def DataT.bytes (d : DataT) : List UInt8 := (d.data.getD []).take d.datasize.toNat

theorem DataT.Valid.bytes_length {d : DataT} (hd : d.Valid) :
    d.bytes.length = d.datasize.toNat := by
  obtain ⟨block, hb, hlen⟩ := hd.block
  simp [bytes, hb, hlen]

theorem DataT.Valid.datasize_eq {d e : DataT} (hd : d.Valid) (he : e.Valid)
    (hb : d.bytes = e.bytes) : d.datasize = e.datasize := by
  have hlen := congrArg List.length hb
  rw [hd.bytes_length, he.bytes_length] at hlen
  have := hd.positive
  have := he.positive
  omega

/-- The copy `data_dup` makes of a value: the value's bytes over the structure
that serves as its block. -/
def DataT.copied (d : DataT) (m : DataMem) : DataT :=
  ⟨d.datasize, some (d.bytes ++ (d.image m).drop d.datasize.toNat)⟩

theorem DataT.Valid.copied {d : DataT} (hd : d.Valid) (m : DataMem) : (d.copied m).Valid := by
  refine ⟨hd.positive, _, rfl, ?_⟩
  simp only [DataT.copied, List.length_append, hd.bytes_length]
  omega

theorem DataT.Valid.copied_bytes {d : DataT} (hd : d.Valid) (m : DataMem) :
    (d.copied m).bytes = d.bytes := by
  rw [DataT.copied, DataT.bytes, Option.getD_some, List.take_left' hd.bytes_length]

theorem dataDup_fits {d : DataT} (hd : d.Valid) (hs : d.datasize ≤ sizeofDataT) (m : DataMem) :
    dataDup (some d) m = .ok (some (d.copied m)) := by
  obtain ⟨source, hb, hlen⟩ := hd.block
  have hpos := hd.positive
  have hnot : ¬ d.datasize ≤ 0 := by omega
  have hfit : d.datasize.toNat ≤ sizeofDataT := by omega
  let created : DataT := ⟨d.datasize, some ((List.range d.datasize.toNat).map m.fill)⟩
  have hcopy : memcpy (created.image m) source d.datasize.toNat =
      .ok (source.take d.datasize.toNat ++ (d.image m).drop d.datasize.toNat) :=
    memcpy_ok (by simpa using hfit) hlen
  simp [dataDup, dataCreate, hb, hnot, created, hcopy, DataT.copied, DataT.bytes]

/-- A larger value is copied past the end of that structure, and a value with
too short a block is read past the end of the block. -/
theorem dataDup_overflows {d : DataT} (hp : 0 < d.datasize) (hb : d.data = some source)
    (hs : ¬ (d.datasize.toNat ≤ sizeofDataT ∧ d.datasize.toNat ≤ source.length)) (m : DataMem) :
    dataDup (some d) m = .error .outOfBounds := by
  have hnot : ¬ d.datasize ≤ 0 := by omega
  let created : DataT := ⟨d.datasize, some ((List.range d.datasize.toNat).map m.fill)⟩
  have hcopy : memcpy (created.image m) source d.datasize.toNat = .error .outOfBounds :=
    memcpy_error (by simpa only [DataT.image_length] using hs)
  simp [dataDup, dataCreate, hb, hnot, created, hcopy]

end HashMapStorage

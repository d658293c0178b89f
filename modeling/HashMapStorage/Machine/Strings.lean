import HashMapStorage.Machine.Heap
import HashMapStorage.Machine.Word

/-!
# Strings in a heap

Blocks of bytes that hold strings, and the pointers to them. A heap that only
grows keeps every string: `Heap.Grows`.
-/

namespace Machine

/-- Every block of `h` is still there, with the same contents. -/
def Heap.Grows (h h' : Heap α) : Prop := ∀ a v, h.cell a = some v → h'.cell a = some v

namespace Heap.Grows

variable {h h' h'' : Heap α}

theorem refl (h : Heap α) : h.Grows h := fun _ _ hc => hc

theorem trans (h₁ : h.Grows h') (h₂ : h'.Grows h'') : h.Grows h'' :=
  fun a v hc => h₂ a v (h₁ a v hc)

theorem set_fresh (hc : h.cell a = none) (v : Option α) : h.Grows (h.set a v) := by
  intro b w hb
  rw [h.set_cell_ne v (Heap.ne_of_free hb hc), hb]

theorem alloc (h : Heap α) (m : Malloc α) (v : Option α) :
    h.Grows ((h.alloc m).2.set (h.alloc m).1 v) := by
  rw [Heap.alloc, Heap.set_set]
  exact set_fresh (m.fresh h) v

theorem unused (hg : h.Grows h') (hc : h'.cell a = none) : h.cell a = none := by
  cases hb : h.cell a with
  | none => rfl
  | some v =>
    rw [hg a v hb] at hc
    nomatch hc

end Heap.Grows

structure Heap.Gains (h h' : Heap α) (as : List Nat) : Prop where
  grows : h.Grows h'
  fresh : ∀ a ∈ as, h.cell a = none
  allocated : ∀ a ∈ as, ∃ v, h'.cell a = some v
  nodup : as.Nodup

namespace Heap.Gains

variable {h h' h'' : Heap α}

theorem refl (h : Heap α) : h.Gains h [] :=
  ⟨.refl h, fun _ ha => (List.not_mem_nil ha).elim, fun _ ha => (List.not_mem_nil ha).elim,
    .nil⟩

theorem set (hc : h.cell a = none) (v : α) : h.Gains (h.set a (some v)) [a] := by
  refine ⟨.set_fresh hc _, fun b hb => ?_, fun b hb => ?_, by simp⟩
  · rwa [List.mem_singleton.mp hb]
  · exact ⟨v, by rw [List.mem_singleton.mp hb, Heap.set_cell]⟩

theorem trans (h₁ : h.Gains h' as) (h₂ : h'.Gains h'' bs) : h.Gains h'' (as ++ bs) := by
  refine ⟨h₁.grows.trans h₂.grows, fun a ha => ?_, fun a ha => ?_, ?_⟩
  · rcases List.mem_append.mp ha with ha | ha
    · exact h₁.fresh a ha
    · exact h₁.grows.unused (h₂.fresh a ha)
  · rcases List.mem_append.mp ha with ha | ha
    · obtain ⟨v, hv⟩ := h₁.allocated a ha
      exact ⟨v, h₂.grows a v hv⟩
    · exact h₂.allocated a ha
  · refine List.nodup_append.mpr ⟨h₁.nodup, h₂.nodup, fun a ha b hb => ?_⟩
    obtain ⟨v, hv⟩ := h₁.allocated a ha
    exact Heap.ne_of_free hv (h₂.fresh b hb)

end Heap.Gains

structure Heap.Has (h : Heap α) (as : List Nat) : Prop where
  allocated : ∀ a ∈ as, ∃ v, h.cell a = some v
  nodup : as.Nodup

namespace Heap.Has

variable {h h' : Heap α}

theorem of_gains (hg : h.Gains h' as) : h'.Has as := ⟨hg.allocated, hg.nodup⟩

theorem frame (hh : h.Has as) (hf : ∀ a ∈ as, h'.cell a = h.cell a) : h'.Has as := by
  refine ⟨fun a ha => ?_, hh.nodup⟩
  rw [hf a ha]
  exact hh.allocated a ha

theorem free (hh : h.Has (p.toList ++ as)) : ∃ h', h.free p = .ok h' ∧ h'.Has as := by
  cases p with
  | none => exact ⟨h, rfl, hh⟩
  | some a =>
    obtain ⟨hnot, hnodup⟩ := List.nodup_cons.mp hh.nodup
    obtain ⟨v, hv⟩ := hh.allocated a (List.mem_cons_self ..)
    refine ⟨h.set a none, Heap.free_some hv, fun b hb => ?_, hnodup⟩
    have hne : b ≠ a := fun e => hnot (e ▸ hb)
    rw [Heap.set_cell_ne _ _ hne]
    exact hh.allocated b (List.mem_cons_of_mem _ hb)

end Heap.Has

abbrev Strings := Heap (List UInt8)

def strAt (h : Strings) (p : Ptr) : Exec CStr := do
  let block ← h.load p
  readStr block

def strOrNull (h : Strings) (p : Ptr) : Exec (Option CStr) :=
  match p with
  | none => pure none
  | some a => do
    let s ← strAt h (some a)
    pure (some s)

/-- The whole block behind a pointer that may be NULL. -/
def blockOrNull (h : Strings) (p : Ptr) : Exec (Option (List UInt8)) :=
  match p with
  | none => pure none
  | some a => do
    let block ← h.load (some a)
    pure (some block)

def strsAt (h : Strings) : List Ptr → Exec (List CStr)
  | [] => pure []
  | p :: ps => do
    let s ← strAt h p
    let ss ← strsAt h ps
    pure (s :: ss)

def newStr (h : Strings) (m : Malloc (List UInt8)) (s : CStr) : Ptr × Strings :=
  let (a, h) := h.alloc m
  (some a, h.set a (some s.block))

def newStrs (m : Malloc (List UInt8)) (h : Strings) : List CStr → List Ptr × Strings
  | [] => ([], h)
  | s :: ss =>
    let (p, h) := newStr h m s
    let (ps, h) := newStrs m h ss
    (p :: ps, h)

def strdup (h : Strings) (p : Ptr) (m : Malloc (List UInt8)) : Exec (Ptr × Strings) := do
  let s ← strAt h p
  pure (newStr h m s)

theorem strAt_ok {h : Strings} (hs : strAt h p = .ok s) :
    ∃ a block, p = some a ∧ h.cell a = some block ∧ readStr block = .ok s := by
  obtain ⟨block, hl, hr⟩ := seq_ok hs
  obtain ⟨a, rfl, hc⟩ := Heap.load_ok hl
  exact ⟨a, block, rfl, hc, hr⟩

theorem strAt_some {h : Strings} (hc : h.cell a = some block) :
    strAt h (some a) = readStr block := by
  rw [strAt, Heap.load_some hc, ok_bind]

theorem strAt_block {h : Strings} (hl : h.load p = .ok s.block) : strAt h p = .ok s := by
  rw [strAt, hl, ok_bind, readStr_block]

theorem strOrNull_of {h : Strings} (hs : strAt h p = .ok s) : strOrNull h p = .ok (some s) := by
  obtain ⟨a, block, rfl, -, -⟩ := strAt_ok hs
  rw [strOrNull, hs, ok_bind, pure_eq_ok]

theorem strOrNull_block {h : Strings} (hb : blockOrNull h p = .ok (s.map CStr.block)) :
    strOrNull h p = .ok s := by
  cases p with
  | none =>
    cases s with
    | none => rfl
    | some s => nomatch hb
  | some a =>
    obtain ⟨block, hl, hb⟩ := seq_ok hb
    cases s with
    | none => nomatch hb
    | some s =>
      cases hb
      exact strOrNull_of (strAt_block hl)

theorem load_grows {h h' : Strings} (hg : h.Grows h') (hl : h.load p = .ok block) :
    h'.load p = .ok block := by
  obtain ⟨a, rfl, hc⟩ := Heap.load_ok hl
  exact Heap.load_some (hg a block hc)

theorem blockOrNull_grows {h h' : Strings} (hg : h.Grows h') (hb : blockOrNull h p = .ok block) :
    blockOrNull h' p = .ok block := by
  cases p with
  | none => exact hb
  | some a =>
    obtain ⟨block, hl, hb⟩ := seq_ok hb
    rw [blockOrNull, load_grows hg hl]
    exact hb

theorem strAt_grows {h h' : Strings} (hg : h.Grows h') (hs : strAt h p = .ok s) :
    strAt h' p = .ok s := by
  obtain ⟨a, block, rfl, hc, hr⟩ := strAt_ok hs
  rw [strAt_some (hg a block hc), hr]

theorem strOrNull_grows {h h' : Strings} (hg : h.Grows h') (hs : strOrNull h p = .ok s) :
    strOrNull h' p = .ok s := by
  cases p with
  | none => exact hs
  | some a =>
    obtain ⟨t, ht, hs⟩ := seq_ok hs
    rw [strOrNull, strAt_grows hg ht]
    exact hs

theorem strOrNull_frame {h h' : Strings} (hf : ∀ a, p = some a → h'.cell a = h.cell a) :
    strOrNull h' p = strOrNull h p := by
  cases p with
  | none => rfl
  | some a => simp only [strOrNull, strAt, Heap.load, hf a rfl]

theorem blockOrNull_frame {h h' : Strings} (hf : ∀ a, p = some a → h'.cell a = h.cell a) :
    blockOrNull h' p = blockOrNull h p := by
  cases p with
  | none => rfl
  | some a => simp only [blockOrNull, Heap.load, hf a rfl]

theorem strsAt_grows {h h' : Strings} (hg : h.Grows h') (hs : strsAt h ps = .ok ss) :
    strsAt h' ps = .ok ss := by
  induction ps generalizing ss with
  | nil => exact hs
  | cons p ps ih =>
    obtain ⟨s, hp, hs⟩ := seq_ok hs
    obtain ⟨ss', hps, hs⟩ := seq_ok hs
    rw [strsAt, strAt_grows hg hp, ok_bind, ih hps]
    exact hs

theorem strsAt_frame {h h' : Strings} (hf : ∀ a, some a ∈ ps → h'.cell a = h.cell a) :
    strsAt h' ps = strsAt h ps := by
  induction ps with
  | nil => rfl
  | cons p ps ih =>
    have hp : strAt h' p = strAt h p := by
      cases p with
      | none => rfl
      | some a => simp only [strAt, Heap.load, hf a (List.mem_cons_self ..)]
    rw [strsAt, strsAt, hp, ih fun a ha => hf a (List.mem_cons_of_mem _ ha)]

theorem strsAt_cons {h : Strings} (hs : strsAt h (p :: ps) = .ok ss) :
    ∃ s ss', ss = s :: ss' ∧ strAt h p = .ok s ∧ strsAt h ps = .ok ss' := by
  obtain ⟨s, hp, hs⟩ := seq_ok hs
  obtain ⟨ss', hps, hs⟩ := seq_ok hs
  cases hs
  exact ⟨s, ss', rfl, hp, hps⟩

theorem strsAt_length {h : Strings} (hs : strsAt h ps = .ok ss) : ss.length = ps.length := by
  induction ps generalizing ss with
  | nil =>
    cases hs
    rfl
  | cons p ps ih =>
    obtain ⟨s, ss', rfl, -, hps⟩ := strsAt_cons hs
    simp [ih hps]

theorem newStr_spec (h : Strings) (m : Malloc (List UInt8)) (s : CStr) :
    h.Grows (newStr h m s).2 ∧ (newStr h m s).2.load (newStr h m s).1 = .ok s.block :=
  ⟨.alloc h m (some s.block), Heap.load_some (Heap.set_cell ..)⟩

theorem newStr_fresh (h : Strings) (m : Malloc (List UInt8)) (s : CStr)
    (ha : (newStr h m s).1 = some a) : h.cell a = none := by
  cases ha
  exact m.fresh h

theorem newStrs_spec (m : Malloc (List UInt8)) (h : Strings) (ss : List CStr) :
    h.Grows (newStrs m h ss).2 ∧ strsAt (newStrs m h ss).2 (newStrs m h ss).1 = .ok ss := by
  induction ss generalizing h with
  | nil => exact ⟨.refl h, rfl⟩
  | cons s ss ih =>
    obtain ⟨hg, hs⟩ := newStr_spec h m s
    obtain ⟨hg', hss⟩ := ih (newStr h m s).2
    refine ⟨hg.trans hg', ?_⟩
    simp only [newStrs, strsAt, strAt_grows hg' (strAt_block hs), hss, ok_bind, pure_eq_ok]

theorem newStrs_fresh (m : Malloc (List UInt8)) (h : Strings) (ss : List CStr)
    (ha : some a ∈ (newStrs m h ss).1) : h.cell a = none := by
  induction ss generalizing h with
  | nil => nomatch ha
  | cons s ss ih =>
    rcases List.mem_cons.mp ha with ha | ha
    · exact newStr_fresh h m s ha.symm
    · exact (newStr_spec h m s).1.unused (ih _ ha)

theorem newStrs_some (m : Malloc (List UInt8)) (h : Strings) (ss : List CStr) :
    ∃ copies : List Nat, (newStrs m h ss).1 = copies.map some := by
  induction ss generalizing h with
  | nil => exact ⟨[], rfl⟩
  | cons s ss ih =>
    obtain ⟨copies, hcopies⟩ := ih (newStr h m s).2
    exact ⟨m.addr h :: copies, congrArg (some (m.addr h) :: ·) hcopies⟩

theorem strdup_spec {h : Strings} (hs : strAt h p = .ok s) (m : Malloc (List UInt8)) :
    ∃ q h', strdup h p m = .ok (q, h') ∧ h.Grows h' ∧ h'.load q = .ok s.block := by
  obtain ⟨hg, hnew⟩ := newStr_spec h m s
  exact ⟨_, _, by rw [strdup, hs, ok_bind, pure_eq_ok], hg, hnew⟩

theorem strdup_fresh {h h' : Strings} (hd : strdup h p m = .ok (q, h')) :
    h.Grows h' ∧ ∀ a, q = some a → h.cell a = none := by
  obtain ⟨s, -, hd⟩ := seq_ok hd
  cases hd
  exact ⟨(newStr_spec h m s).1, fun a ha => newStr_fresh h m s ha⟩

theorem newStr_gains (h : Strings) (m : Malloc (List UInt8)) (s : CStr) :
    h.Gains (newStr h m s).2 (newStr h m s).1.toList := by
  rw [newStr, Heap.alloc]
  dsimp only
  rw [Heap.set_set]
  exact .set (m.fresh h) _

theorem strdup_gains {h h' : Strings} (hd : strdup h p m = .ok (q, h')) :
    ∃ a, q = some a ∧ h.Gains h' [a] := by
  obtain ⟨s, -, hd⟩ := seq_ok hd
  cases hd
  exact ⟨_, rfl, newStr_gains h m s⟩

end Machine

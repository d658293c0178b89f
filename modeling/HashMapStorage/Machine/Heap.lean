import HashMapStorage.Machine.Fault
import Mathlib.Logic.Function.Basic

/-!
# A heap of blocks of one type

A heap maps the addresses of the allocated blocks to their contents. Following
a pointer outside it is a fault. The allocator is a parameter of every
operation that allocates: it may return any address that is not allocated,
that of a released block included, and leaves any contents there.
-/

namespace Machine

abbrev Ptr := Option Nat

/-- Finitely many blocks are allocated: none from `top` on. -/
structure Heap (α : Type) where
  cell : Nat → Option α
  top : Nat
  unused : ∀ a, top ≤ a → cell a = none

/-- What `malloc` does in a given heap: the address it returns, which is not
allocated there, and what the block holds before it is written. -/
structure Malloc (α : Type) where
  addr : Heap α → Nat
  junk : Heap α → α
  fresh : ∀ h : Heap α, h.cell (addr h) = none

def Malloc.at (a : Nat) (junk : α) : Malloc α where
  addr h := if (h.cell a).isNone then a else h.top
  junk _ := junk
  fresh h := by
    split
    · rename_i hn
      simpa using hn
    · exact h.unused _ (Nat.le_refl _)

def mallocTop (junk : α) : Malloc α :=
  ⟨Heap.top, fun _ => junk, fun h => h.unused _ (Nat.le_refl _)⟩

namespace Heap

def empty : Heap α := ⟨fun _ => none, 0, fun _ _ => rfl⟩

instance : Inhabited (Heap α) := ⟨empty⟩

def set (h : Heap α) (a : Nat) (v : Option α) : Heap α where
  cell := Function.update h.cell a v
  top := max h.top (a + 1)
  unused b hb := by
    have hne : b ≠ a := by omega
    rw [Function.update_of_ne hne]
    exact h.unused b (by omega)

def load (h : Heap α) : Ptr → Exec α
  | none => throw .nullPointer
  | some a =>
    match h.cell a with
    | some v => pure v
    | none => throw .dangling

def store (h : Heap α) (p : Ptr) (v : α) : Exec (Heap α) :=
  match p with
  | none => throw .nullPointer
  | some a => if (h.cell a).isSome then pure (h.set a (some v)) else throw .dangling

def free (h : Heap α) (p : Ptr) : Exec (Heap α) :=
  match p with
  | none => pure h
  | some a => if (h.cell a).isSome then pure (h.set a none) else throw .dangling

def alloc (h : Heap α) (m : Malloc α) : Nat × Heap α := (m.addr h, h.set (m.addr h) (m.junk h))

@[simp] theorem empty_cell (a : Nat) : (empty : Heap α).cell a = none := rfl

@[simp] theorem set_cell (h : Heap α) (a : Nat) (v : Option α) : (h.set a v).cell a = v :=
  Function.update_self ..

theorem set_cell_ne (h : Heap α) (v : Option α) (hne : b ≠ a) :
    (h.set a v).cell b = h.cell b := Function.update_of_ne hne ..

theorem set_set (h : Heap α) (a : Nat) (v w : Option α) : (h.set a v).set a w = h.set a w := by
  have hcell : Function.update (Function.update h.cell a v) a w = Function.update h.cell a w :=
    Function.update_idem ..
  have htop : max (max h.top (a + 1)) (a + 1) = max h.top (a + 1) := by omega
  simp only [set, hcell, htop]

theorem set_same {h : Heap α} (hc : h.cell a = some v) : h.set a (some v) = h := by
  have htop : a < h.top := by
    by_contra hlt
    simp [h.unused a (by omega)] at hc
  have hcell : Function.update h.cell a (some v) = h.cell := Function.update_eq_self_iff.mpr hc.symm
  have hmax : max h.top (a + 1) = h.top := by omega
  cases h
  simp only [set, hcell, hmax]

theorem ne_of_free {h : Heap α} (hc : h.cell b = some v) (hn : h.cell a = none) : b ≠ a := by
  rintro rfl
  rw [hn] at hc
  cases hc

theorem lt_top {h : Heap α} (hc : h.cell a = some v) : a < h.top := by
  by_contra hlt
  simp [h.unused a (by omega)] at hc

theorem load_some {h : Heap α} (hc : h.cell a = some v) : h.load (some a) = .ok v := by
  simp [load, hc]

theorem load_ok {h : Heap α} (hl : h.load p = .ok v) : ∃ a, p = some a ∧ h.cell a = some v := by
  cases p with
  | none => simp [load] at hl
  | some a =>
    cases hc : h.cell a with
    | none => simp [load, hc] at hl
    | some w =>
      simp only [load, hc, pure_eq_ok, Except.ok.injEq] at hl
      exact ⟨a, rfl, hl ▸ hc⟩

theorem store_some {h : Heap α} (hc : h.cell a = some w) :
    h.store (some a) v = .ok (h.set a (some v)) := by
  simp [store, hc]

theorem free_some {h : Heap α} (hc : h.cell a = some w) : h.free (some a) = .ok (h.set a none) := by
  simp [free, hc]

theorem free_ok {h h' : Heap α} (hf : h.free (some a) = .ok h') :
    (∃ w, h.cell a = some w) ∧ h' = h.set a none := by
  cases hc : h.cell a with
  | none => simp [free, hc] at hf
  | some w =>
    simp only [free, hc, Option.isSome_some, ↓reduceIte, pure_eq_ok, Except.ok.injEq] at hf
    exact ⟨⟨w, rfl⟩, hf.symm⟩

theorem free_frame {h h' : Heap α} (hf : h.free p = .ok h') (ha : p ≠ some a) :
    h'.cell a = h.cell a := by
  cases p with
  | none =>
    cases hf
    rfl
  | some b =>
    obtain ⟨-, rfl⟩ := free_ok hf
    exact set_cell_ne _ _ fun e => ha (congrArg some e.symm)

theorem free_cell {h h' : Heap α} (hf : h.free p = .ok h') (a : Nat) :
    h'.cell a = if p = some a then none else h.cell a := by
  split
  · rename_i hp
    subst hp
    obtain ⟨-, rfl⟩ := free_ok hf
    exact set_cell ..
  · rename_i hp
    exact free_frame hf hp

end Heap

end Machine

import HashMapStorage.Machine.Strings
import Mathlib.Data.Multiset.Bind

/-!
# Ledgers

`Ledger h s`: the allocated blocks of `h` are those of the multiset `s`, each
given by its address and its contents. A sum of multisets is memory side by
side, so a rule that is stated with `s` beside it says that the operation
leaves `s` alone, and what is left of a ledger in the end is what leaked.

`Blocks h s` is the same without the contents: `s` are the addresses.

`Carries R view s`: the blocks `s` hold a heap of another type, each of its
blocks spread over those that `R` names.
-/

namespace Machine

abbrev Cells (α : Type) := Multiset (Nat × α)

structure Ledger (h : Heap α) (s : Cells α) : Prop where
  nodup : s.Nodup
  cell : ∀ x, x ∈ s ↔ h.cell x.1 = some x.2

def Heap.place (h : Heap α) (m : Malloc α) (v : α) : Nat × Heap α :=
  (m.addr h, h.set (m.addr h) (some v))

namespace Ledger

variable {h h' : Heap α} {s t : Cells α}

theorem empty : Ledger (.empty : Heap α) 0 := ⟨Multiset.nodup_zero, fun _ => by simp⟩

theorem get (hl : Ledger h s) (ha : (a, v) ∈ s) : h.cell a = some v := (hl.cell (a, v)).mp ha

theorem congr (hl : Ledger h s) (he : h'.cell = h.cell) : Ledger h' s :=
  ⟨hl.nodup, fun x => by rw [hl.cell x, he]⟩

theorem fresh (hl : Ledger h s) (ha : h.cell a = none) (hx : x ∈ s) : x.1 ≠ a := by
  rintro rfl
  rw [(hl.cell x).mp hx] at ha
  cases ha

theorem apart (hl : Ledger h (x ::ₘ s)) (hy : y ∈ s) : y.1 ≠ x.1 := by
  intro he
  have hx := hl.get (Multiset.mem_cons_self x s)
  have hc := (hl.cell y).mp (Multiset.mem_cons_of_mem hy)
  rw [he, hx] at hc
  obtain rfl : y = x := Prod.ext he (Option.some.inj hc).symm
  exact (Multiset.nodup_cons.mp hl.nodup).1 hy

theorem release (hl : Ledger h ((a, v) ::ₘ s)) : Ledger (h.set a none) s := by
  refine ⟨(Multiset.nodup_cons.mp hl.nodup).2, fun x => ?_⟩
  by_cases hx : x.1 = a
  · have hmem : x ∉ s := fun hm => hl.apart hm hx
    simp [hmem, hx]
  · have hne : x ≠ (a, v) := fun he => hx (congrArg Prod.fst he)
    rw [Heap.set_cell_ne _ _ hx, ← hl.cell x, Multiset.mem_cons, or_iff_right hne]

theorem alloc (hl : Ledger h s) (ha : h.cell a = none) :
    Ledger (h.set a (some v)) ((a, v) ::ₘ s) := by
  refine ⟨Multiset.nodup_cons.mpr ⟨fun hm => hl.fresh ha hm rfl, hl.nodup⟩, fun x => ?_⟩
  rw [Multiset.mem_cons]
  by_cases hx : x.1 = a
  · have hmem : x ∉ s := fun hm => hl.fresh ha hm hx
    obtain ⟨b, w⟩ := x
    obtain rfl : b = a := hx
    simp [hmem, eq_comm]
  · have hne : x ≠ (a, v) := fun he => hx (congrArg Prod.fst he)
    rw [Heap.set_cell_ne _ _ hx, ← hl.cell x, or_iff_right hne]

theorem update (hl : Ledger h ((a, v) ::ₘ s)) (w : α) :
    Ledger (h.set a (some w)) ((a, w) ::ₘ s) := by
  have hset := hl.release.alloc (v := w) (Heap.set_cell ..)
  rwa [Heap.set_set] at hset

theorem store (hl : Ledger h ((a, v) ::ₘ s)) (w : α) :
    ∃ h', h.store (some a) w = .ok h' ∧ Ledger h' ((a, w) ::ₘ s) ∧ h.top ≤ h'.top :=
  ⟨_, Heap.store_some (hl.get (Multiset.mem_cons_self ..)), hl.update w, Nat.le_max_left ..⟩

theorem free (hl : Ledger h ((a, v) ::ₘ s)) :
    ∃ h', h.free (some a) = .ok h' ∧ Ledger h' s ∧ h.top ≤ h'.top :=
  ⟨_, Heap.free_some (hl.get (Multiset.mem_cons_self ..)), hl.release, Nat.le_max_left ..⟩

theorem place (hl : Ledger h s) (m : Malloc α) (v : α) :
    Ledger (h.place m v).2 (((h.place m v).1, v) ::ₘ s) ∧ h.top ≤ (h.place m v).2.top :=
  ⟨hl.alloc (m.fresh h), Nat.le_max_left ..⟩

theorem malloc (hl : Ledger h s) (m : Malloc α) :
    Ledger (h.alloc m).2 (((h.alloc m).1, m.junk h) ::ₘ s) ∧ h.top ≤ (h.alloc m).2.top :=
  hl.place m (m.junk h)

theorem grows (hl : Ledger h s) (hl' : Ledger h' (t + s)) : h.Grows h' := fun a v hc =>
  (hl'.cell (a, v)).mp (Multiset.mem_add.mpr (.inr ((hl.cell (a, v)).mpr hc)))

theorem exists_ledger (h : Heap α) : ∃ s, Ledger h s := by
  let cells := (List.range h.top).filterMap fun a => (h.cell a).map fun v => (a, v)
  have hmem : ∀ x, x ∈ cells ↔ h.cell x.1 = some x.2 := by
    rintro ⟨a, v⟩
    simp only [cells, List.mem_filterMap, List.mem_range, Option.map_eq_some_iff, Prod.mk.injEq]
    constructor
    · rintro ⟨b, -, w, hc, rfl, rfl⟩
      exact hc
    · exact fun hc => ⟨a, Heap.lt_top hc, v, hc, rfl, rfl⟩
  refine ⟨(cells : Cells α), ?_, hmem⟩
  refine List.Nodup.filterMap (fun a b x ha hb => ?_) List.nodup_range
  obtain ⟨v, -, rfl⟩ := Option.mem_map.mp ha
  obtain ⟨w, -, he⟩ := Option.mem_map.mp hb
  exact (congrArg Prod.fst he).symm

end Ledger

def Within (h : Heap α) (s : Cells α) : Prop := ∀ x ∈ s, h.cell x.1 = some x.2

theorem Ledger.within {h : Heap α} {s t : Cells α} (hl : Ledger h t) (hs : s ≤ t) :
    Within h s :=
  fun x hx => (hl.cell x).mp (Multiset.mem_of_le hs hx)

-- ---------------------------------------------------------------------------
-- Addresses only
-- ---------------------------------------------------------------------------

structure Blocks (h : Heap α) (s : Multiset Nat) : Prop where
  nodup : s.Nodup
  cell : ∀ a, a ∈ s ↔ h.cell a ≠ none

def Ptr.block (p : Ptr) : Multiset Nat := p.toList

def blocksOf (ps : List Ptr) : Multiset Nat := (ps.map Ptr.block).sum

@[simp] theorem block_none : Ptr.block none = 0 := rfl

@[simp] theorem block_some (a : Nat) : Ptr.block (some a) = {a} := rfl

@[simp] theorem blocksOf_nil : blocksOf [] = 0 := rfl

@[simp] theorem blocksOf_cons (p : Ptr) (ps : List Ptr) :
    blocksOf (p :: ps) = p.block + blocksOf ps := rfl

theorem blocksOf_some (as : List Nat) : blocksOf (as.map some) = (as : Multiset Nat) := by
  induction as with
  | nil => rfl
  | cons a as ih =>
    rw [List.map_cons, blocksOf_cons, ih, block_some, Multiset.singleton_add, Multiset.cons_coe]

theorem released_thins {h h' : Heap α} {as : List Nat}
    (hc : ∀ a, h'.cell a = if a ∈ as then none else h.cell a) : Heap.Grows h' h := by
  intro a v hv
  rw [hc a] at hv
  split at hv
  · cases hv
  · exact hv

namespace Blocks

variable {h h' : Heap α} {s : Multiset Nat}

theorem empty : Blocks (.empty : Heap α) 0 := ⟨Multiset.nodup_zero, fun _ => by simp⟩

theorem alloc (hb : Blocks h s) (ha : h.cell a = none) (v : α) :
    Blocks (h.set a (some v)) ({a} + s) := by
  have hnot : a ∉ s := fun hm => (hb.cell a).mp hm ha
  rw [Multiset.singleton_add]
  refine ⟨Multiset.nodup_cons.mpr ⟨hnot, hb.nodup⟩, fun b => ?_⟩
  rw [Multiset.mem_cons]
  by_cases hba : b = a
  · simp [hba]
  · rw [Heap.set_cell_ne _ _ hba, ← hb.cell b, or_iff_right hba]

theorem write (hb : Blocks h s) (hc : h.cell a = some w) (v : α) :
    Blocks (h.set a (some v)) s := by
  refine ⟨hb.nodup, fun b => ?_⟩
  by_cases hba : b = a
  · rw [hba, hb.cell a]
    simp [hc]
  · rw [Heap.set_cell_ne _ _ hba, ← hb.cell b]

theorem free (hb : Blocks h (p.block + s)) (hf : h.free p = .ok h') : Blocks h' s := by
  cases p with
  | none =>
    cases hf
    simpa using hb
  | some a =>
    obtain ⟨-, rfl⟩ := Heap.free_ok hf
    rw [block_some, Multiset.singleton_add] at hb
    obtain ⟨hnot, hnodup⟩ := Multiset.nodup_cons.mp hb.nodup
    refine ⟨hnodup, fun b => ?_⟩
    by_cases hba : b = a
    · rw [hba]
      simp [hnot]
    · rw [Heap.set_cell_ne _ _ hba, ← hb.cell b, Multiset.mem_cons, or_iff_right hba]

theorem has {as : List Nat} (hb : Blocks h ((as : Multiset Nat) + s)) : h.Has as := by
  refine ⟨fun a ha => Option.ne_none_iff_exists'.mp ((hb.cell a).mp ?_), ?_⟩
  · exact Multiset.mem_add.mpr (.inl (Multiset.mem_coe.mpr ha))
  · exact Multiset.coe_nodup.mp (Multiset.nodup_add.mp hb.nodup).1

theorem released {as : List Nat} (hb : Blocks h ((as : Multiset Nat) + s))
    (hc : ∀ a, h'.cell a = if a ∈ as then none else h.cell a) : Blocks h' s := by
  obtain ⟨hnodup, hcell⟩ := hb
  obtain ⟨-, hs, hdisjoint⟩ := Multiset.nodup_add.mp hnodup
  refine ⟨hs, fun a => ?_⟩
  rw [hc a]
  by_cases hin : a ∈ as
  · have hnot : a ∉ s := Multiset.disjoint_left.mp hdisjoint (Multiset.mem_coe.mpr hin)
    simp [hin, hnot]
  · rw [if_neg hin, ← hcell a, Multiset.mem_add, Multiset.mem_coe, or_iff_right hin]

theorem grows {mid : Heap α} {lost : Multiset Nat} (hb : Blocks h s)
    (hb' : Blocks h' (lost + s)) (hg : h.Grows mid) (ht : Heap.Grows h' mid) :
    h.Grows h' := by
  intro a v hc
  have hin : a ∈ s := (hb.cell a).mpr (by simp [hc])
  obtain ⟨w, hw⟩ := Option.ne_none_iff_exists'.mp
    ((hb'.cell a).mp (Multiset.mem_add.mpr (.inr hin)))
  rw [hw, ← ht a w hw, hg a v hc]

end Blocks

-- ---------------------------------------------------------------------------
-- A heap spread over the blocks of another one
-- ---------------------------------------------------------------------------

def Carries (R : Nat × α → Cells β → Prop) (view : Heap α) (s : Cells β) : Prop :=
  ∃ t ss, Ledger view t ∧ Multiset.Rel R t ss ∧ s = ss.sum

namespace Carries

variable {R : Nat × α → Cells β → Prop} {view : Heap α} {s own : Cells β}

theorem empty : Carries R (.empty : Heap α) 0 :=
  ⟨0, 0, .empty, .zero, rfl⟩

theorem focus (hc : Carries R view s) (ha : view.cell a = some v) :
    ∃ own rest, R (a, v) own ∧ s = own + rest ∧ Carries R (view.set a none) rest := by
  obtain ⟨t, ss, hl, hr, rfl⟩ := hc
  obtain ⟨t, rfl⟩ := Multiset.exists_cons_of_mem ((hl.cell (a, v)).mpr ha)
  obtain ⟨own, rest, hown, hrest, rfl⟩ := Multiset.rel_cons_left.mp hr
  exact ⟨own, rest.sum, hown, Multiset.sum_cons .., t, rest, hl.release, hrest, rfl⟩

theorem fill (hc : Carries R view s) (ha : view.cell a = none) (hr : R (a, v) own) :
    Carries R (view.set a (some v)) (own + s) := by
  obtain ⟨t, ss, hl, hrel, rfl⟩ := hc
  exact ⟨_, own ::ₘ ss, hl.alloc ha, .cons hr hrel, (Multiset.sum_cons ..).symm⟩

theorem eq_zero (hc : Carries R view s) (hv : ∀ a, view.cell a = none) : s = 0 := by
  obtain ⟨t, ss, hl, hr, rfl⟩ := hc
  have ht : t = 0 := Multiset.eq_zero_of_forall_notMem fun x hx => by
    have hcell := (hl.cell x).mp hx
    rw [hv] at hcell
    cases hcell
  rw [ht, Multiset.rel_zero_left] at hr
  rw [hr, Multiset.sum_zero]

end Carries

end Machine

import HashMapStorage.Machine.Heap
import Mathlib.Data.List.Nodup
import Mathlib.Data.List.Range
import Mathlib.Data.List.Perm.Subperm

/-!
# Singly linked chains in a heap

`Linked N h p xs q`: following the links from `p` one passes exactly the
blocks `xs`, each given by its address and its item, and then reaches `q`.
A chain that ends in NULL is determined by its start, so it never passes a
block twice and is no longer than the heap.
-/

namespace Machine

/-- How a block of a chain stores its item and its link. -/
structure NodeShape (α β : Type) where
  item : α → β
  next : α → Ptr

variable {α β : Type} {N : NodeShape α β} {h h' : Heap α}

def Linked (N : NodeShape α β) (h : Heap α) : Ptr → List (Nat × β) → Ptr → Prop
  | p, [], q => p = q
  | p, (a, b) :: xs, q =>
    p = some a ∧ ∃ v, h.cell a = some v ∧ N.item v = b ∧ Linked N h (N.next v) xs q

def addrs (xs : List (Nat × β)) : List Nat := xs.map Prod.fst

@[simp] theorem addrs_nil : addrs ([] : List (Nat × β)) = [] := rfl

@[simp] theorem addrs_cons (x : Nat × β) (xs : List (Nat × β)) :
    addrs (x :: xs) = x.1 :: addrs xs := rfl

@[simp] theorem addrs_append (xs ys : List (Nat × β)) :
    addrs (xs ++ ys) = addrs xs ++ addrs ys := List.map_append

namespace Linked

theorem append (hl : Linked N h p (xs ++ ys) q) :
    ∃ r, Linked N h p xs r ∧ Linked N h r ys q := by
  induction xs generalizing p with
  | nil => exact ⟨p, rfl, hl⟩
  | cons x xs ih =>
    obtain ⟨hp, v, hc, hi, hl⟩ := hl
    obtain ⟨r, hx, hy⟩ := ih hl
    exact ⟨r, ⟨hp, v, hc, hi, hx⟩, hy⟩

theorem trans (hx : Linked N h p xs r) (hy : Linked N h r ys q) :
    Linked N h p (xs ++ ys) q := by
  induction xs generalizing p with
  | nil =>
    cases hx
    exact hy
  | cons x xs ih =>
    obtain ⟨hp, v, hc, hi, hl⟩ := hx
    exact ⟨hp, v, hc, hi, ih hl⟩

theorem frame (hl : Linked N h p xs q) (hf : ∀ a ∈ addrs xs, h'.cell a = h.cell a) :
    Linked N h' p xs q := by
  induction xs generalizing p with
  | nil => exact hl
  | cons x xs ih =>
    obtain ⟨hp, v, hc, hi, hl⟩ := hl
    refine ⟨hp, v, ?_, hi, ih hl fun a ha => hf a (List.mem_cons_of_mem _ ha)⟩
    rw [hf x.1 (by simp), hc]

theorem set_frame (hl : Linked N h p xs q) (ha : a ∉ addrs xs) (v : Option α) :
    Linked N (h.set a v) p xs q :=
  hl.frame fun _ hb => h.set_cell_ne v fun e => ha (e ▸ hb)

theorem cell_of_mem (hl : Linked N h p xs q) (hx : (a, b) ∈ xs) :
    ∃ v, h.cell a = some v ∧ N.item v = b := by
  induction xs generalizing p with
  | nil => simp at hx
  | cons x xs ih =>
    obtain ⟨-, v, hc, hi, hl⟩ := hl
    rcases List.mem_cons.mp hx with rfl | hx
    · exact ⟨v, hc, hi⟩
    · exact ih hl hx

theorem allocated (hl : Linked N h p xs q) (ha : a ∈ addrs xs) : ∃ v, h.cell a = some v := by
  obtain ⟨⟨_, b⟩, hx, rfl⟩ := List.mem_map.mp ha
  obtain ⟨v, hc, -⟩ := hl.cell_of_mem hx
  exact ⟨v, hc⟩

theorem not_mem_of_free (hl : Linked N h p xs q) (hc : h.cell a = none) : a ∉ addrs xs := by
  intro ha
  obtain ⟨v, hv⟩ := hl.allocated ha
  simp [hc] at hv

theorem unique (hx : Linked N h p xs none) (hy : Linked N h p ys none) : xs = ys := by
  induction xs generalizing p ys with
  | nil =>
    cases hx
    cases ys with
    | nil => rfl
    | cons y ys => nomatch hy.1
  | cons x xs ih =>
    obtain ⟨rfl, v, hc, hi, hl⟩ := hx
    cases ys with
    | nil => nomatch hy
    | cons y ys =>
      obtain ⟨hp, w, hc', hi', hl'⟩ := hy
      have ha : y.1 = x.1 := (Option.some.inj hp).symm
      rw [ha, hc] at hc'
      cases hc'
      have hxy : x = y := Prod.ext ha.symm (hi.symm.trans hi')
      rw [hxy, ih hl hl']

/-- Two chains to NULL that share a block share everything after it. -/
theorem tail_unique (hx : Linked N h p (xs ++ x :: xs') none)
    (hy : Linked N h q (ys ++ y :: ys') none) (ha : x.1 = y.1) : x :: xs' = y :: ys' := by
  obtain ⟨r, -, hr⟩ := hx.append
  obtain ⟨s, -, hs⟩ := hy.append
  have hrs : r = s := by rw [hr.1, hs.1, ha]
  exact hr.unique (hrs ▸ hs)

theorem nodup (hl : Linked N h p xs none) : (addrs xs).Nodup := by
  induction xs generalizing p with
  | nil => simp
  | cons x xs ih =>
    obtain ⟨hp, v, hc, hi, hl'⟩ := hl
    refine List.nodup_cons.mpr ⟨fun hm => ?_, ih hl'⟩
    -- a second visit would give a chain a proper suffix of itself
    obtain ⟨y, hy, ha⟩ := List.mem_map.mp hm
    obtain ⟨xs₁, xs₂, rfl⟩ := List.append_of_mem hy
    have hfull : Linked N h p ([] ++ x :: (xs₁ ++ y :: xs₂)) none := ⟨hp, v, hc, hi, hl'⟩
    have hlen := congrArg List.length (hfull.tail_unique hl' ha.symm)
    simp at hlen
    omega

theorem ne_last (hl : Linked N h p (xs ++ (a, b) :: ys) none) (hy : ys ≠ []) :
    (addrs (xs ++ (a, b) :: ys)).getLast? ≠ some a := by
  obtain ⟨zs, z, rfl⟩ := (List.eq_nil_or_concat ys).resolve_left hy
  have hnd := hl.nodup
  intro hlast
  have ha : z.1 = a := by
    have hsplit : xs ++ (a, b) :: zs.concat z = (xs ++ (a, b) :: zs) ++ [z] := by simp
    rw [hsplit, addrs_append, addrs_cons, addrs_nil, List.getLast?_concat] at hlast
    exact Option.some.inj hlast
  simp [List.nodup_append, ha] at hnd

theorem length_le_top (hl : Linked N h p xs none) : xs.length ≤ h.top := by
  have hsub : addrs xs ⊆ List.range h.top := by
    intro a ha
    obtain ⟨v, hc⟩ := hl.allocated ha
    exact List.mem_range.mpr (Heap.lt_top hc)
  have hlen := (hl.nodup.subperm hsub).length_le
  simpa [addrs] using hlen

theorem next_last (hl : Linked N h p (xs ++ [(a, b)]) none) :
    ∃ v, h.cell a = some v ∧ N.item v = b ∧ N.next v = none := by
  obtain ⟨r, -, -, v, hc, hi, hn⟩ := hl.append
  exact ⟨v, hc, hi, hn⟩

theorem extend (hl : Linked N h p (xs ++ [(a, b)]) q) (hi : N.item v = b)
    (hn : N.next v = some c) (hw : h'.cell c = some w) (hwn : N.next w = q')
    (ha : h'.cell a = some v) (hf : ∀ d ∈ addrs xs, h'.cell d = h.cell d) :
    Linked N h' p (xs ++ [(a, b), (c, N.item w)]) q' := by
  obtain ⟨r, hx, hr, -⟩ := hl.append
  refine (hx.frame hf).trans ⟨hr, v, ha, hi, ?_⟩
  rw [hn]
  exact ⟨rfl, w, hw, rfl, hwn⟩

theorem skip (hl : Linked N h p (xs ++ (a, b) :: (c, d) :: ys) none)
    (hw : h.cell c = some w) (hi : N.item v = b) (hn : N.next v = N.next w)
    (ha : h'.cell a = some v) (hf : ∀ e ∈ addrs (xs ++ ys), h'.cell e = h.cell e) :
    Linked N h' p (xs ++ (a, b) :: ys) none := by
  obtain ⟨r, hx, hr, u, hu, -, -, w', hw', -, hy⟩ := hl.append
  rw [hw] at hw'
  cases hw'
  refine (hx.frame fun e he => hf e (by simp [he])).trans ⟨hr, v, ha, hi, ?_⟩
  rw [hn]
  exact hy.frame fun e he => hf e (by simp [he])

theorem replace (hl : Linked N h p (xs ++ (a, b) :: ys) q) (ha : a ∉ addrs (xs ++ ys))
    (hv : h.cell a = some v) (hn : N.next w = N.next v) :
    Linked N (h.set a (some w)) p (xs ++ (a, N.item w) :: ys) q := by
  obtain ⟨r, hx, hr, u, hu, -, hy⟩ := hl.append
  simp only [addrs_append, List.mem_append, not_or] at ha
  rw [hv] at hu
  cases hu
  exact (hx.set_frame ha.1 _).trans ⟨hr, w, h.set_cell .., rfl, hn ▸ hy.set_frame ha.2 _⟩

end Linked

-- ---------------------------------------------------------------------------
-- Tail pointers
-- ---------------------------------------------------------------------------

def lastLink (N : NodeShape α β) (h : Heap α) : (fuel : Nat) → (last p : Ptr) → Exec Ptr
  | 0, _, _ => throw .diverges
  | _ + 1, last, none => pure last
  | fuel + 1, _, some a => do
    let v ← h.load (some a)
    lastLink N h fuel (some a) (N.next v)

/-- The chain is not empty and its tail pointer, not NULL, is not its last
block: appending through it would link the new block somewhere else. -/
def staleTail (N : NodeShape α β) (h : Heap α) (head tail : Ptr) : Bool :=
  head.isSome && tail.isSome && lastLink N h (h.top + 1) none head != .ok tail

theorem Linked.lastLink (last : Ptr) (hl : Linked N h p xs none) (hf : xs.length < fuel) :
    lastLink N h fuel last p = .ok ((addrs xs).getLast?.or last) := by
  induction xs generalizing p last fuel with
  | nil =>
    cases hl
    cases fuel with
    | zero => simp at hf
    | succ fuel => rfl
  | cons x xs ih =>
    obtain ⟨rfl, v, hc, -, hl⟩ := hl
    cases fuel with
    | zero => simp at hf
    | succ fuel =>
      have hrest := ih (some x.1) hl (by simpa using hf)
      rw [Machine.lastLink, Heap.load_some hc, ok_bind, hrest]
      cases xs <;> simp [List.getLast?_cons]

theorem Linked.staleTail_eq_false (hl : Linked N h p xs none) :
    staleTail N h p tail = false ↔ xs = [] ∨ tail = none ∨ tail = (addrs xs).getLast? := by
  have hlast : Machine.lastLink N h (h.top + 1) none p = .ok (addrs xs).getLast? := by
    simpa using hl.lastLink none (Nat.lt_succ_of_le hl.length_le_top)
  cases xs with
  | nil =>
    have hp : p = none := hl
    simp [staleTail, hp]
  | cons x xs =>
    have hp : p.isSome := by simp [hl.1]
    simp only [staleTail, hlast, hp, Bool.true_and, Bool.and_eq_false_iff, bne_eq_false_iff_eq,
      Except.ok.injEq, Option.isSome_eq_false_iff, Option.isNone_iff_eq_none, List.cons_ne_nil,
      false_or, eq_comm (b := tail)]

end Machine

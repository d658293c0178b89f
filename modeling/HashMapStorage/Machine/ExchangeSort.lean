import HashMapStorage.Machine.Least
import Mathlib.Data.List.Perm.Basic
import Mathlib.Order.OrderDual

/-!
# The exchange sort

Position by position, the item there is compared with every later one and gives
way to it where that one is smaller. A pass leaves the least of the items in
front, and exchanges never lose or double one.
-/

namespace Machine

section

variable {ι κ : Type} [LinearOrder κ] (key : ι → κ)

/-- A pass over the items behind `x`: the item that ends up in front of them,
and what is left behind it. -/
def exchangePass (x : ι) : List ι → ι × List ι
  | [] => (x, [])
  | y :: ys =>
    if key x > key y then
      let (least, rest) := exchangePass y ys
      (least, x :: rest)
    else
      let (least, rest) := exchangePass x ys
      (least, y :: rest)

def exchangeRounds : Nat → List ι → List ι
  | 0, xs => xs
  | _ + 1, [] => []
  | n + 1, x :: xs =>
    let (least, rest) := exchangePass key x xs
    least :: exchangeRounds n rest

def exchangeSort (xs : List ι) : List ι := exchangeRounds key xs.length xs

variable {key}

theorem exchangePass_gt {x y : ι} (h : key x > key y) (ys : List ι) :
    exchangePass key x (y :: ys) = ((exchangePass key y ys).1, x :: (exchangePass key y ys).2) := by
  simp [exchangePass, h]

theorem exchangePass_le {x y : ι} (h : ¬ key x > key y) (ys : List ι) :
    exchangePass key x (y :: ys) = ((exchangePass key x ys).1, y :: (exchangePass key x ys).2) := by
  simp [exchangePass, h]

theorem exchangePass_perm (key : ι → κ) (x : ι) (xs : List ι) :
    ((exchangePass key x xs).1 :: (exchangePass key x xs).2).Perm (x :: xs) := by
  induction xs generalizing x with
  | nil => exact .refl _
  | cons y ys ih =>
    by_cases h : key x > key y
    · rw [exchangePass_gt h]
      exact (List.Perm.swap ..).trans ((ih y).cons x)
    · rw [exchangePass_le h]
      exact (List.Perm.swap ..).trans (((ih x).cons y).trans (List.Perm.swap ..))

theorem exchangePass_least (x : ι) (xs : List ι) :
    ∀ y ∈ x :: xs, key (exchangePass key x xs).1 ≤ key y := by
  induction xs generalizing x with
  | nil => simp [exchangePass]
  | cons z zs ih =>
    simp only [List.forall_mem_cons]
    by_cases h : key x > key z
    · rw [exchangePass_gt h]
      obtain ⟨hz, hzs⟩ := List.forall_mem_cons.mp (ih z)
      exact ⟨hz.trans h.le, hz, hzs⟩
    · rw [exchangePass_le h]
      obtain ⟨hx, hzs⟩ := List.forall_mem_cons.mp (ih x)
      exact ⟨hx, hx.trans (not_lt.mp h), hzs⟩

theorem exchangePass_length (key : ι → κ) (x : ι) (xs : List ι) :
    (exchangePass key x xs).2.length = xs.length := by
  have hlen := (exchangePass_perm key x xs).length_eq
  simpa using hlen

theorem exchangeRounds_perm (key : ι → κ) (n : Nat) (xs : List ι) :
    (exchangeRounds key n xs).Perm xs := by
  induction n generalizing xs with
  | zero => exact .refl _
  | succ n ih =>
    cases xs with
    | nil => exact .refl _
    | cons x xs => exact ((ih _).cons _).trans (exchangePass_perm key x xs)

/-- Behind the least item there are only items at least as large, in whatever
order the other rounds leave them. -/
theorem exchangeRounds_sorted {n : Nat} {xs : List ι} (hn : xs.length ≤ n) :
    (exchangeRounds key n xs).Pairwise fun x y => key x ≤ key y := by
  induction n generalizing xs with
  | zero =>
    obtain rfl := List.eq_nil_of_length_eq_zero (Nat.le_zero.mp hn)
    exact .nil
  | succ n ih =>
    cases xs with
    | nil => exact .nil
    | cons x xs =>
      refine List.pairwise_cons.mpr ⟨fun y hy => ?_, ih ?_⟩
      · have hmem := (exchangeRounds_perm key n _).subset hy
        refine exchangePass_least x xs y ?_
        exact (exchangePass_perm key x xs).subset (List.mem_cons_of_mem _ hmem)
      · rw [exchangePass_length]
        exact Nat.le_of_succ_le_succ hn

theorem exchangeSort_perm (key : ι → κ) (xs : List ι) : (exchangeSort key xs).Perm xs :=
  exchangeRounds_perm ..

theorem exchangeSort_sorted (key : ι → κ) (xs : List ι) :
    (exchangeSort key xs).Pairwise fun x y => key x ≤ key y := exchangeRounds_sorted (Nat.le_refl _)

theorem exchangeSort_first (key : ι → κ) {xs : List ι} (hxs : xs ≠ []) :
    IsLeastOf key (exchangeSort key xs)[0]? xs := by
  have hperm := exchangeSort_perm key xs
  have hsorted := exchangeSort_sorted key xs
  cases hs : exchangeSort key xs with
  | nil => exact absurd (hs ▸ hperm).symm.eq_nil hxs
  | cons x ys =>
    rw [hs] at hperm hsorted
    refine ⟨x, hperm.subset (by simp), rfl, fun y hy => ?_⟩
    rcases List.mem_cons.mp (hperm.symm.subset hy) with rfl | hy
    · exact le_refl _
    · exact (List.pairwise_cons.mp hsorted).1 y hy

theorem exchangeSort_last (key : ι → κ) {xs : List ι} (hxs : xs ≠ []) :
    IsLeastOf (OrderDual.toDual ∘ key) (exchangeSort key xs)[xs.length - 1]? xs := by
  have hperm := exchangeSort_perm key xs
  have hsorted := exchangeSort_sorted key xs
  rw [← hperm.length_eq, ← List.getLast?_eq_getElem?]
  cases hs : exchangeSort key xs using List.reverseRecOn with
  | nil => exact absurd (hs ▸ hperm).symm.eq_nil hxs
  | append_singleton ys x =>
    rw [hs] at hperm hsorted
    refine ⟨x, hperm.subset (by simp), by simp, fun y hy => ?_⟩
    rcases List.mem_append.mp (hperm.symm.subset hy) with hy | hy
    · exact (List.pairwise_append.mp hsorted).2.2 y hy x (by simp)
    · rw [List.mem_singleton.mp hy]

end

end Machine

import Mathlib.Data.List.Infix
import Mathlib.Data.List.Nodup
import Mathlib.Order.Lattice

/-!
# The least item of lists that come one after another

A scan that keeps the least key met so far, and the item that has it, from one
list to the next. What is kept is the least of everything scanned; it is the
least of the last list only while each list reaches as low as those before it.
The order is any linear one, so the greatest item is the least of the dual.
-/

namespace Machine

theorem forall_prefix_concat {P : List α → α → Prop} :
    (∀ before x, before ++ [x] <+: xs ++ [z] → P before x) ↔
      P xs z ∧ ∀ before x, before ++ [x] <+: xs → P before x := by
  simp only [List.prefix_concat_iff]
  constructor
  · exact fun h => ⟨h xs z (.inl rfl), fun before x hx => h before x (.inr hx)⟩
  · rintro ⟨hlast, hold⟩ before x (h | h)
    · obtain ⟨rfl, hz⟩ := List.append_inj' h rfl
      cases hz
      exact hlast
    · exact hold before x h

theorem pairwise_iff_before {R : α → α → Prop} {xs : List α} :
    xs.Pairwise R ↔ ∀ before x, before ++ [x] <+: xs → ∀ y ∈ before, R y x := by
  induction xs using List.reverseRecOn with
  | nil =>
    refine iff_of_true .nil fun before x h => ?_
    simpa using List.prefix_nil.mp h
  | append_singleton xs z ih =>
    rw [forall_prefix_concat, ← ih, List.pairwise_append, and_comm (a := ∀ y ∈ xs, R y z)]
    simp

theorem forall_prefix_filterMap {f : α → Option β} {P : List β → β → Prop} {xs : List α} :
    (∀ before y, before ++ [y] <+: xs.filterMap f → P before y) ↔
      ∀ before x, before ++ [x] <+: xs → ∀ y, f x = some y → P (before.filterMap f) y := by
  induction xs using List.reverseRecOn with
  | nil =>
    constructor <;>
    · intro _ before x h
      simpa using List.prefix_nil.mp h
  | append_singleton xs z ih =>
    rw [forall_prefix_concat, List.filterMap_append]
    cases hz : f z with
    | none => simp [hz, ih]
    | some y => simp [hz, forall_prefix_concat, ih]

section

variable {ι κ : Type} [LinearOrder κ] (key : ι → κ)

def keepLeast (best : κ × Option ι) (x : ι) : κ × Option ι :=
  if key x ≤ best.1 then (key x, some x) else best

def IsLeastOf (kept : Option ι) (xs : List ι) : Prop :=
  ∃ x ∈ xs, kept = some x ∧ ∀ y ∈ xs, key x ≤ key y

/-- The later list reaches as low as the earlier one. -/
def Reaches (earlier later : List ι) : Prop := ∀ x ∈ earlier, ∃ y ∈ later, key y ≤ key x

variable {key}

/-- A scan finds nothing as low as what was kept, or the least item. -/
theorem scan_least (xs : List ι) (best : κ × Option ι) :
    (xs.foldl (keepLeast key) best = best ∧ ∀ x ∈ xs, best.1 < key x) ∨
      ∃ x ∈ xs, xs.foldl (keepLeast key) best = (key x, some x) ∧ key x ≤ best.1 ∧
        ∀ y ∈ xs, key x ≤ key y := by
  induction xs generalizing best with
  | nil => exact .inl ⟨rfl, fun x hx => nomatch hx⟩
  | cons z xs ih =>
    simp only [List.foldl_cons, List.forall_mem_cons, List.exists_mem_cons_iff]
    by_cases hz : key z ≤ best.1
    · have hkept : keepLeast key best z = (key z, some z) := if_pos hz
      rw [hkept]
      rcases ih (key z, some z) with ⟨hscan, hlt⟩ | ⟨x, hx, hscan, hle, hleast⟩
      · exact .inr (.inl ⟨hscan, hz, le_refl _, fun y hy => (hlt y hy).le⟩)
      · exact .inr (.inr ⟨x, hx, hscan, hle.trans hz, hle, hleast⟩)
    · have hkept : keepLeast key best z = best := if_neg hz
      rw [hkept]
      rcases ih best with ⟨hscan, hlt⟩ | ⟨x, hx, hscan, hle, hleast⟩
      · exact .inl ⟨hscan, not_le.mp hz, hlt⟩
      · exact .inr (.inr ⟨x, hx, hscan, hle, hle.trans (not_le.mp hz).le, hleast⟩)

theorem scan_from (key : ι → κ) (xs : List ι) (top : κ) :
    (xs.foldl (keepLeast key) (top, none)).2 = none ∧ (¬ ∃ x ∈ xs, key x ≤ top) ∨
      IsLeastOf key (xs.foldl (keepLeast key) (top, none)).2 xs ∧ ∃ x ∈ xs, key x ≤ top := by
  rcases scan_least xs (top, none) with ⟨hscan, hlt⟩ | ⟨x, hx, hscan, hle, hleast⟩
  · rw [hscan]
    exact .inl ⟨rfl, fun ⟨x, hx, hle⟩ => absurd hle (not_le.mpr (hlt x hx))⟩
  · rw [hscan]
    exact .inr ⟨⟨x, hx, rfl, hleast⟩, x, hx, hle⟩

theorem IsLeastOf.unique {p q : Option ι} (hd : (xs.map key).Nodup) (hp : IsLeastOf key p xs)
    (hq : IsLeastOf key q xs) : p = q := by
  obtain ⟨x, hx, rfl, hxle⟩ := hp
  obtain ⟨y, hy, rfl, hyle⟩ := hq
  exact congrArg some (List.inj_on_of_nodup_map hd hx hy ((hxle y hy).antisymm (hyle x hx)))

theorem scan_least_of_top (hxs : xs ≠ []) (htop : ∀ x ∈ xs, key x ≤ top) :
    ∃ x ∈ xs, xs.foldl (keepLeast key) (top, none) = (key x, some x) ∧ ∀ y ∈ xs, key x ≤ key y := by
  rcases scan_least xs (top, none) with ⟨-, hlt⟩ | ⟨x, hx, hscan, -, hleast⟩
  · obtain ⟨x, hx⟩ := List.exists_mem_of_ne_nil xs hxs
    exact absurd (htop x hx) (not_le.mpr (hlt x hx))
  · exact ⟨x, hx, hscan, hleast⟩

theorem kept_least_iff (hxs : xs ≠ []) (htop : ∀ x ∈ before ++ xs, key x ≤ top) :
    IsLeastOf key ((before ++ xs).foldl (keepLeast key) (top, none)).2 xs ↔
      Reaches key before xs := by
  constructor
  · rintro ⟨x, hx, hkept, -⟩ y hy
    obtain ⟨z, -, hscan, hleast⟩ := scan_least_of_top (by simp [hxs]) htop
    rw [hscan] at hkept
    cases hkept
    exact ⟨x, hx, hleast y (List.mem_append_left _ hy)⟩
  · intro hreach
    rw [List.foldl_append]
    rcases scan_least xs (before.foldl (keepLeast key) (top, none)) with
      ⟨-, hlt⟩ | ⟨x, hx, hscan, -, hleast⟩
    · -- nothing in `xs` is as low as what was kept, and that was in `before`
      obtain ⟨y, hy⟩ := List.exists_mem_of_ne_nil xs hxs
      by_cases hbefore : before = []
      · rw [hbefore] at hlt
        exact absurd (htop y (List.mem_append_right _ hy)) (not_le.mpr (hlt y hy))
      · obtain ⟨z, hz, hscan, -⟩ :=
          scan_least_of_top hbefore fun x hx => htop x (List.mem_append_left _ hx)
        obtain ⟨w, hw, hle⟩ := hreach z hz
        have hlow := hlt w hw
        rw [hscan] at hlow
        exact absurd hle (not_le.mpr hlow)
    · rw [hscan]
      exact ⟨x, hx, rfl, hleast⟩

/-- List after list: each one's least item is kept behind it exactly when each
list reaches as low as every earlier one. -/
theorem tracks_iff_reaches (key : ι → κ) (top : κ) {lists : List (List ι)}
    (hlists : ∀ xs ∈ lists, xs ≠ [] ∧ ∀ x ∈ xs, key x ≤ top) :
    (∀ before xs, before ++ [xs] <+: lists →
        IsLeastOf key ((before ++ [xs]).flatten.foldl (keepLeast key) (top, none)).2 xs) ↔
      lists.Pairwise (Reaches key) := by
  rw [pairwise_iff_before]
  refine forall_congr' fun before => forall_congr' fun xs => forall_congr' fun hpre => ?_
  have hmem : ∀ ys ∈ before ++ [xs], ys ∈ lists := fun ys hys => hpre.subset hys
  have htop : ∀ x ∈ before.flatten ++ xs, key x ≤ top := by
    intro x hx
    rcases List.mem_append.mp hx with hx | hx
    · obtain ⟨ys, hys, hx⟩ := List.mem_flatten.mp hx
      exact (hlists ys (hmem ys (List.mem_append_left _ hys))).2 x hx
    · exact (hlists xs (hmem xs (by simp))).2 x hx
  rw [List.flatten_append, List.flatten_singleton,
    kept_least_iff (hlists xs (hmem xs (by simp))).1 htop]
  constructor
  · exact fun h ys hys x hx => h x (List.mem_flatten_of_mem hys hx)
  · intro h x hx
    obtain ⟨ys, hys, hx⟩ := List.mem_flatten.mp hx
    exact h ys hys x hx

end

end Machine

import HashMapStorage.Machine.ExchangeSort
import HashMapStorage.Machine.Least
import HashMapStorage.Machine.Strings
import HashMapStorage.Machine.Text
import Mathlib.Order.OrderDual

/-!
# The children of the chain (`table_skel_init`)

The server looks for the first and the last child twice: a scan keeps the
smallest and the largest number met, and an exchange sort puts the paths in
order. Both read the number of a child from what `strtok` leaves of its name,
in place; a child is the address of the block that holds its name.
-/

namespace HashMapStorage

open Machine

/-- The locals of the scan; a path that is not set holds whatever the stack held. -/
structure ChildScan where
  idMin : Int
  idMax : Int
  pathMin : Option Nat
  pathMax : Option Nat
  deriving DecidableEq

def ChildScan.start : ChildScan := ⟨99999999, -1, none, none⟩

def nodeText : List UInt8 := [110, 111, 100, 101]

/-- `atoi(strtok(path, "node"))`. No call goes on where another one stopped, so
where that is is dropped. -/
def childNumber (h : Strings) (path : Nat) : Exec (Strings × Int) := do
  let block ← h.load (some path)
  let (id, block, _) ← strtok nodeText block 0
  let h ← h.store (some path) block
  match id with
  | none => throw .nullPointer
  | some start => do
    let s ← readStr (block.drop start)
    pure (h, atoi s)

def ChildScan.keep (scan : ChildScan) (id : Int) (path : Nat) : ChildScan :=
  let scan := if scan.idMin ≥ id then { scan with idMin := id, pathMin := some path } else scan
  if scan.idMax ≤ id then { scan with idMax := id, pathMax := some path } else scan

def scanChildrenLoop : Strings → ChildScan → List Nat → Exec (Strings × ChildScan)
  | h, scan, [] => pure (h, scan)
  | h, scan, path :: data => do
    let (h, id) ← childNumber h path
    scanChildrenLoop h (scan.keep id path) data

def printPath (h : Strings) (path : Option Nat) : Exec CStr :=
  match path with
  | none => throw .dangling
  | some a => strAt h (some a)

def pathAt (pathsOrder : List Nat) (i : Nat) : Exec Nat :=
  match pathsOrder[i]? with
  | some path => pure path
  | none => throw .outOfBounds

def copyPathsLoop (room : Nat) : (copied : List Nat) → List Nat → Exec (List Nat)
  | copied, [] => pure copied
  | copied, path :: data =>
    if copied.length < room then copyPathsLoop room (copied ++ [path]) data
    else throw .outOfBounds

def exchangeLoop (i : Nat) :
    (left j : Nat) → Strings → (pathsOrder : List Nat) → Exec (Strings × List Nat)
  | 0, _, h, pathsOrder => pure (h, pathsOrder)
  | left + 1, j, h, pathsOrder => do
    let path ← pathAt pathsOrder i
    let other ← pathAt pathsOrder j
    let (h, number) ← childNumber h path
    let (h, otherNumber) ← childNumber h other
    if number > otherNumber then
      exchangeLoop i left (j + 1) h ((pathsOrder.set i other).set j path)
    else exchangeLoop i left (j + 1) h pathsOrder

def orderChildrenLoop :
    (left i : Nat) → Strings → (pathsOrder : List Nat) → Exec (Strings × List Nat)
  | 0, _, h, pathsOrder => pure (h, pathsOrder)
  | left + 1, i, h, pathsOrder => do
    let (h, pathsOrder) ← exchangeLoop i left (i + 1) h pathsOrder
    orderChildrenLoop left (i + 1) h pathsOrder

/-- From the scan to the sort. `malloc` is asked for fifteen bytes a path, which
take eight. -/
def orderChildren (h : Strings) (data : List Nat) : Exec (Strings × ChildScan × List Nat) := do
  let (h, scan) ← scanChildrenLoop h .start data
  let _ ← printPath h scan.pathMax
  let _ ← printPath h scan.pathMin
  let bytes ← checkInt (data.length * 15)
  let pathsOrder ← copyPathsLoop (bytes.toNat / 8) [] data
  let (h, pathsOrder) ← orderChildrenLoop data.length 0 h pathsOrder
  pure (h, scan, pathsOrder)

-- ---------------------------------------------------------------------------
-- The number of a child
-- ---------------------------------------------------------------------------

/-- The block at `a` holds `node` and a numeral for an `int`. -/
def NamesChild (h : Strings) (a : Nat) (n : Int) : Prop :=
  ∃ numeral behind, h.cell a = some (nodeText ++ numeral ++ 0 :: behind) ∧
    Numeral numeral n ∧ IsInt n

def twoChildren (first second : List UInt8) : Strings :=
  (Heap.empty.set 16 (some (nodeText ++ first ++ [0]))).set 32 (some (nodeText ++ second ++ [0]))

def twoNumbers (first second : Int) (a : Nat) : Int := if a = 16 then first else second

theorem twoChildren_named (hf : Numeral first n) (hs : Numeral second m) (hn : IsInt n)
    (hm : IsInt m) :
    ∀ a ∈ [16, 32], NamesChild (twoChildren first second) a (twoNumbers n m a) := by
  simp only [List.forall_mem_cons]
  exact ⟨⟨first, [], rfl, hf, hn⟩, ⟨second, [], rfl, hs, hm⟩, by simp⟩

theorem sevenThree_named :
    ∀ a ∈ [16, 32], NamesChild (twoChildren [55] [51]) a (twoNumbers 7 3 a) := by
  have hseven : Numeral [55] 7 := .nonneg (by decide) (List.all_eq_true.mp rfl)
  have hthree : Numeral [51] 3 := .nonneg (by decide) (List.all_eq_true.mp rfl)
  exact twoChildren_named hseven hthree (by decide) (by decide)

theorem childNumber_named (hc : NamesChild h a n) : childNumber h a = .ok (h, n) := by
  obtain ⟨numeral, behind, hblock, hn, hi⟩ := hc
  obtain ⟨hne, hdigits⟩ := hn.digits
  have hplain : ∀ b ∈ numeral, b ∉ nodeText ∧ b ≠ 0 := by
    intro b hb
    rcases hdigits b hb with rfl | hd
    · decide
    · have hletters : ∀ c ∈ nodeText, 100 ≤ c.toNat := by simp [nodeText]
      obtain ⟨hlow, hhigh⟩ := isDigit_iff.mp hd
      refine ⟨fun hmem => ?_, ?_⟩
      · have := hletters b hmem
        omega
      · rintro rfl
        exact absurd hlow (by decide)
  have hnul : 0 ∉ numeral := fun hmem => (hplain 0 hmem).2 rfl
  have htok : strtok nodeText (nodeText ++ numeral ++ 0 :: behind) 0 =
      .ok (some 4, nodeText ++ numeral ++ 0 :: behind, 4 + numeral.length) := by
    have hletters : 0 ∉ nodeText ++ numeral := by
      simpa [hnul] using (by decide : 0 ∉ nodeText)
    have hlast : strtok nodeText ([] ++ (nodeText ++ numeral ++ 0 :: behind))
        ([] : List UInt8).length =
        .ok (some (0 + 4), [] ++ (nodeText ++ numeral ++ 0 :: behind), 0 + 4 + numeral.length) :=
      strtok_last (fun b hb => hb) (fun b hb => (hplain b hb).1) hne hletters
    simpa using hlast
  have hread : readStr ((nodeText ++ numeral ++ 0 :: behind).drop 4) = .ok ⟨numeral, hnul⟩ :=
    readStr_append ⟨numeral, hnul⟩ behind
  have hnumber : atoi ⟨numeral, hnul⟩ = n := atoi_numeral hn hi
  simp only [childNumber, Heap.load_some hblock, ok_bind, htok, Heap.store_some hblock,
    Heap.set_same hblock, hread, hnumber, pure_eq_ok]

section

variable {h : Strings} {number : Nat → Int} {data : List Nat}

-- ---------------------------------------------------------------------------
-- The scan
-- ---------------------------------------------------------------------------

theorem scanChildrenLoop_named (hc : ∀ a ∈ data, NamesChild h a (number a)) (scan : ChildScan) :
    scanChildrenLoop h scan data =
      .ok (h, data.foldl (fun scan a => scan.keep (number a) a) scan) := by
  induction data generalizing scan with
  | nil => rfl
  | cons a data ih =>
    obtain ⟨ha, hdata⟩ := List.forall_mem_cons.mp hc
    rw [scanChildrenLoop, childNumber_named ha, ok_bind]
    exact ih hdata _

open OrderDual (toDual)

/-- The two ends are two scans for the least key, one of them in the dual order. -/
theorem keep_min (scan : ChildScan) (a : Nat) :
    ((scan.keep (number a) a).idMin, (scan.keep (number a) a).pathMin) =
      keepLeast number (scan.idMin, scan.pathMin) a := by
  simp only [ChildScan.keep, keepLeast]
  split <;> split <;> rfl

theorem keep_max (scan : ChildScan) (a : Nat) :
    (toDual (scan.keep (number a) a).idMax, (scan.keep (number a) a).pathMax) =
      keepLeast (toDual ∘ number) (toDual scan.idMax, scan.pathMax) a := by
  simp only [ChildScan.keep, keepLeast, Function.comp_apply, OrderDual.toDual_le_toDual]
  by_cases hmin : scan.idMin ≥ number a <;> by_cases hmax : scan.idMax ≤ number a <;>
    simp [hmin, hmax]

def scanned (number : Nat → Int) (data : List Nat) : ChildScan :=
  data.foldl (fun scan a => scan.keep (number a) a) .start

theorem scanned_min (number : Nat → Int) (data : List Nat) :
    ((scanned number data).idMin, (scanned number data).pathMin) =
      data.foldl (keepLeast number) (99999999, none) :=
  (List.foldl_hom (fun scan : ChildScan => (scan.idMin, scan.pathMin))
    fun scan a => (keep_min scan a).symm).symm

theorem scanned_max (number : Nat → Int) (data : List Nat) :
    (toDual (scanned number data).idMax, (scanned number data).pathMax) =
      data.foldl (keepLeast (toDual ∘ number)) (toDual (-1), none) :=
  (List.foldl_hom (fun scan : ChildScan => (toDual scan.idMax, scan.pathMax))
    fun scan a => (keep_max scan a).symm).symm

-- ---------------------------------------------------------------------------
-- The sort
-- ---------------------------------------------------------------------------

theorem pathAt_append (hi : front.length = i) : pathAt (front ++ x :: rest) i = .ok x := by
  simp [pathAt, ← hi]

theorem set_append_cons {front rest : List Nat} (hi : front.length = i) :
    (front ++ x :: rest).set i y = front ++ y :: rest := by
  rw [List.set_append_right _ _ (Nat.le_of_eq hi), hi, Nat.sub_self, List.set_cons_zero]

/-- In an array whose first positions, `front`, are done with: the item at `i`,
those it has been compared with, and those it has not. -/
theorem exchangeLoop_pass {front : List Nat} (hi : front.length = i) (x : Nat)
    (compared rest : List Nat) (hj : j = i + 1 + compared.length)
    (hc : ∀ a ∈ x :: rest, NamesChild h a (number a)) :
    exchangeLoop i rest.length j h (front ++ x :: (compared ++ rest)) =
      .ok (h, front ++ (exchangePass number x rest).1 ::
        (compared ++ (exchangePass number x rest).2)) := by
  induction rest generalizing x compared j with
  | nil => rfl
  | cons y rest ih =>
    obtain ⟨hx, hyrest⟩ := List.forall_mem_cons.mp hc
    obtain ⟨hy, hrest⟩ := List.forall_mem_cons.mp hyrest
    have hfar : (front ++ x :: compared).length = j := by
      simp only [List.length_append, List.length_cons]
      omega
    have hj' : ∀ z, j + 1 = i + 1 + (compared ++ [z]).length := by
      intro z
      simp only [List.length_append, List.length_singleton]
      omega
    have hother : pathAt (front ++ x :: (compared ++ y :: rest)) j = .ok y := by
      have hat : pathAt (front ++ x :: compared ++ y :: rest) j = .ok y := pathAt_append hfar
      simpa using hat
    rw [List.length_cons, exchangeLoop, pathAt_append hi, ok_bind, hother, ok_bind,
      childNumber_named hx, ok_bind]
    simp only [childNumber_named hy, ok_bind]
    by_cases hgt : number x > number y
    · have hset : ((front ++ x :: (compared ++ y :: rest)).set i y).set j x =
          front ++ y :: (compared ++ [x] ++ rest) := by
        have hsecond : (front ++ y :: compared ++ y :: rest).set j x =
            front ++ y :: compared ++ x :: rest := set_append_cons (by simpa using hfar)
        rw [set_append_cons hi]
        simpa using hsecond
      rw [if_pos hgt, hset, ih y (compared ++ [x]) (hj' x) hyrest, exchangePass_gt hgt]
      simp
    · have hstay : front ++ x :: (compared ++ y :: rest) =
          front ++ x :: (compared ++ [y] ++ rest) := by simp
      rw [if_neg hgt, hstay, ih x (compared ++ [y]) (hj' y)
        (List.forall_mem_cons.mpr ⟨hx, hrest⟩), exchangePass_le hgt]
      simp

theorem orderChildrenLoop_rounds {front : List Nat} (hi : front.length = i) (paths : List Nat)
    (hc : ∀ a ∈ paths, NamesChild h a (number a)) :
    orderChildrenLoop paths.length i h (front ++ paths) =
      .ok (h, front ++ exchangeSort number paths) := by
  induction hn : paths.length generalizing front i paths with
  | zero =>
    obtain rfl := List.eq_nil_of_length_eq_zero hn
    rfl
  | succ n ih =>
    obtain ⟨x, rest, rfl⟩ := List.exists_cons_of_length_eq_add_one hn
    obtain rfl : rest.length = n := by simpa using hn
    have hpass := exchangeLoop_pass hi x [] rest rfl hc
    simp only [List.nil_append, List.length_nil, Nat.add_zero] at hpass
    have hlen := exchangePass_length number x rest
    have hnames : ∀ a ∈ (exchangePass number x rest).2, NamesChild h a (number a) := fun a ha =>
      hc a ((exchangePass_perm number x rest).subset (List.mem_cons_of_mem _ ha))
    have hfront : (front ++ [(exchangePass number x rest).1]).length = i + 1 := by simp [hi]
    have hrest := ih hfront _ hnames hlen
    rw [orderChildrenLoop, hpass, ok_bind]
    simpa [exchangeSort, exchangeRounds, hlen] using hrest

theorem orderChildrenLoop_named (hc : ∀ a ∈ data, NamesChild h a (number a)) :
    orderChildrenLoop data.length 0 h data = .ok (h, exchangeSort number data) := by
  have hall : orderChildrenLoop data.length 0 h ([] ++ data) =
      .ok (h, [] ++ exchangeSort number data) :=
    orderChildrenLoop_rounds (rfl : ([] : List Nat).length = 0) data hc
  rwa [List.nil_append, List.nil_append] at hall

/-- Every name still yields the number it did. -/
theorem children_sorted (hc : ∀ a ∈ data, NamesChild h a (number a)) :
    ∃ scan pathsOrder, scanChildrenLoop h .start data = .ok (h, scan) ∧
      orderChildrenLoop data.length 0 h data = .ok (h, pathsOrder) ∧
      pathsOrder.Perm data ∧ (pathsOrder.Pairwise fun a b => number a ≤ number b) ∧
      ∀ a ∈ data, childNumber h a = .ok (h, number a) :=
  ⟨_, _, scanChildrenLoop_named hc .start, orderChildrenLoop_named hc,
    exchangeSort_perm number data, exchangeSort_sorted number data,
    fun a ha => childNumber_named (hc a ha)⟩

theorem children_sorted_two :
    ∃ scan pathsOrder,
      scanChildrenLoop (twoChildren [55] [51]) .start [16, 32] =
        .ok (twoChildren [55] [51], scan) ∧
      orderChildrenLoop 2 0 (twoChildren [55] [51]) [16, 32] =
        .ok (twoChildren [55] [51], pathsOrder) ∧
      pathsOrder.Perm [16, 32] ∧
      (pathsOrder.Pairwise fun a b => twoNumbers 7 3 a ≤ twoNumbers 7 3 b) ∧
      ∀ a ∈ [16, 32], childNumber (twoChildren [55] [51]) a =
        .ok (twoChildren [55] [51], twoNumbers 7 3 a) :=
  children_sorted sevenThree_named

-- ---------------------------------------------------------------------------
-- From the scan to the sort
-- ---------------------------------------------------------------------------

theorem scanned_pathMin (number : Nat → Int) (data : List Nat) :
    (scanned number data).pathMin = none ∧ (¬ ∃ a ∈ data, number a ≤ 99999999) ∨
      IsLeastOf number (scanned number data).pathMin data ∧ ∃ a ∈ data, number a ≤ 99999999 := by
  have hscan := congrArg Prod.snd (scanned_min number data)
  dsimp only at hscan
  rw [hscan]
  exact scan_from number data 99999999

theorem scanned_pathMax (hne : data ≠ []) (hpos : ∀ a ∈ data, 0 ≤ number a) :
    IsLeastOf (toDual ∘ number) (scanned number data).pathMax data := by
  have hscan := congrArg Prod.snd (scanned_max number data)
  dsimp only at hscan
  rw [hscan]
  rcases scan_from (toDual ∘ number) data (toDual (-1)) with ⟨-, hnone⟩ | ⟨hleast, -⟩
  · obtain ⟨a, ha⟩ := List.exists_mem_of_ne_nil data hne
    have hle : (-1 : Int) ≤ number a := (hpos a ha).trans' (by decide)
    exact absurd ⟨a, ha, OrderDual.toDual_le_toDual.mpr hle⟩ hnone
  · exact hleast

theorem copyPathsLoop_room {room : Nat} {copied : List Nat}
    (hr : copied.length + data.length ≤ room) :
    copyPathsLoop room copied data = .ok (copied ++ data) := by
  induction data generalizing copied with
  | nil => simp [copyPathsLoop]
  | cons a data ih =>
    simp only [List.length_cons] at hr
    have hnext : (copied ++ [a]).length + data.length ≤ room := by
      simp only [List.length_append, List.length_singleton]
      omega
    rw [copyPathsLoop, if_pos (by omega), ih hnext, List.append_assoc, List.singleton_append]

theorem printPath_named (hc : NamesChild h a n) : Defined (printPath h (some a)) := by
  obtain ⟨numeral, behind, hblock, -, -⟩ := hc
  exact ⟨.ofBytes (nodeText ++ numeral ++ 0 :: behind), by
    simp [printPath, strAt, Heap.load_some hblock, readStr]⟩

theorem orderChildren_defined_iff (hc : ∀ a ∈ data, NamesChild h a (number a)) (hne : data ≠ [])
    (hpos : ∀ a ∈ data, 0 ≤ number a) :
    Defined (orderChildren h data) ↔
      (∃ a ∈ data, number a ≤ 99999999) ∧ IsInt (data.length * 15) := by
  obtain ⟨last, hlast, hmax, -⟩ := scanned_pathMax hne hpos
  obtain ⟨lastName, hprint⟩ := printPath_named (hc last hlast)
  have hscan : scanChildrenLoop h .start data = .ok (h, scanned number data) :=
    scanChildrenLoop_named hc .start
  rw [orderChildren, hscan]
  simp only [ok_bind, hmax, hprint]
  rcases scanned_pathMin number data with ⟨hunset, hnone⟩ | ⟨⟨first, hfirst, hmin, -⟩, hlow⟩
  · refine iff_of_false ?_ fun h => hnone h.1
    rintro ⟨result, hrun⟩
    rw [hunset] at hrun
    cases hrun
  · obtain ⟨firstName, hname⟩ := printPath_named (hc first hfirst)
    rw [hmin, hname, ok_bind, and_iff_right hlow]
    constructor
    · rintro ⟨result, hrun⟩
      obtain ⟨bytes, hbytes, -⟩ := seq_ok hrun
      exact (checkInt_ok hbytes).1
    · intro hint
      have hroom : copyPathsLoop ((data.length * 15 : Int).toNat / 8) [] data = .ok data :=
        copyPathsLoop_room (by simp only [List.length_nil]; omega)
      rw [checkInt_of_isInt hint, ok_bind, hroom, ok_bind, orderChildrenLoop_named hc, ok_bind]
      exact ⟨_, rfl⟩

theorem scan_agrees_iff (hc : ∀ a ∈ data, NamesChild h a (number a)) (hne : data ≠ [])
    (hd : (data.map number).Nodup) (hpos : ∀ a ∈ data, 0 ≤ number a) :
    ∃ scan pathsOrder, scanChildrenLoop h .start data = .ok (h, scan) ∧
      orderChildrenLoop data.length 0 h data = .ok (h, pathsOrder) ∧
      ((∃ first last, scan.pathMin = some first ∧ scan.pathMax = some last ∧
        pathsOrder[0]? = some first ∧ pathsOrder[data.length - 1]? = some last) ↔
        ∃ a ∈ data, number a ≤ 99999999) := by
  refine ⟨scanned number data, _, scanChildrenLoop_named hc .start, orderChildrenLoop_named hc, ?_⟩
  have hdual : (data.map (toDual ∘ number)).Nodup := hd
  have hfirst := exchangeSort_first number hne
  have hlast := exchangeSort_last number hne
  have hmax := scanned_pathMax hne hpos
  have hsame : (scanned number data).pathMax = (exchangeSort number data)[data.length - 1]? :=
    hmax.unique hdual hlast
  rcases scanned_pathMin number data with ⟨hunset, hnone⟩ | ⟨hmin, hlow⟩
  · refine iff_of_false ?_ hnone
    rintro ⟨first, last, hset, -⟩
    rw [hunset] at hset
    cases hset
  · refine iff_of_true ?_ hlow
    have hsame' := hmin.unique hd hfirst
    obtain ⟨first, -, hset, -⟩ := hmin
    obtain ⟨last, -, hset', -⟩ := hmax
    exact ⟨first, last, hset, hset', hsame' ▸ hset, hsame ▸ hset'⟩

theorem scan_agrees_iff_two :
    ∃ scan pathsOrder,
      scanChildrenLoop (twoChildren [55] [51]) .start [16, 32] =
        .ok (twoChildren [55] [51], scan) ∧
      orderChildrenLoop 2 0 (twoChildren [55] [51]) [16, 32] =
        .ok (twoChildren [55] [51], pathsOrder) ∧
      ∃ first last, scan.pathMin = some first ∧ scan.pathMax = some last ∧
        pathsOrder[0]? = some first ∧ pathsOrder[1]? = some last := by
  obtain ⟨scan, pathsOrder, hscan, hsort, hiff⟩ :=
    scan_agrees_iff sevenThree_named (by decide) (by decide) (by decide)
  exact ⟨scan, pathsOrder, hscan, hsort, hiff.mpr (by decide)⟩

/-- The hundred millionth child, when it is alone. -/
theorem late_child_unset :
    ∃ h, NamesChild h 16 100000000 ∧
      (∃ scan, scanChildrenLoop h .start [16] = .ok (h, scan) ∧ scan.pathMin = none) ∧
      orderChildrenLoop 1 0 h [16] = .ok (h, [16]) ∧ ¬ Defined (orderChildren h [16]) := by
  let h := twoChildren [48, 49, 48, 48, 48, 48, 48, 48, 48, 48] []
  have hname : NamesChild h 16 100000000 :=
    ⟨_, [], rfl, .nonneg (by decide) (List.all_eq_true.mp rfl), by decide⟩
  have hnames : ∀ a ∈ [16], NamesChild h a ((fun _ => 100000000) a) := by simpa using hname
  refine ⟨h, hname, ⟨_, scanChildrenLoop_named hnames .start, rfl⟩, orderChildrenLoop_named hnames,
    ?_⟩
  rw [orderChildren_defined_iff hnames (by decide) (by decide)]
  decide

end

end HashMapStorage

import HashMapStorage.Machine.Least
import HashMapStorage.Machine.Word
import Mathlib.Order.OrderDual

/-!
# The head and the tail of the chain (`child_watcher`)

The client's globals survive from one event to the next, so they hold the
smallest and the largest id met since the client was started. How the id is
read from the name of a child is a parameter.
-/

namespace HashMapStorage

open Machine

/-- The globals of the client; a path is NULL until the first event. -/
structure Client where
  idMin : Int
  idMax : Int
  pathMin : Option CStr
  pathMax : Option CStr
  deriving DecidableEq

def Client.start : Client := ⟨99999999, -1, none, none⟩

/-- `state` is `ZOO_CONNECTED_STATE`, `type` is `ZOO_CHILD_EVENT`, and `children_list`
is what `zoo_wget_children` fills in. -/
structure WatcherEvent where
  connected : Bool
  child : Bool
  children_list : List CStr

section

variable (id : CStr → Int)

def Client.scanChild (c : Client) (data : CStr) : Client :=
  let c := if c.idMin ≥ id data then { c with idMin := id data, pathMin := some data } else c
  if c.idMax ≤ id data then { c with idMax := id data, pathMax := some data } else c

def childWatcher (c : Client) (event : WatcherEvent) : Client :=
  if event.connected then
    if event.child then event.children_list.foldl (Client.scanChild id) c else c
  else c

def watched (events : List WatcherEvent) : Client := events.foldl (childWatcher id) .start

def WatcherEvent.received (event : WatcherEvent) : Option (List CStr) :=
  if event.connected && event.child then some event.children_list else none

/-- The paths name the children with the smallest and the largest id. -/
structure Client.NamesEnds (c : Client) (children : List CStr) : Prop where
  head : ∃ child ∈ children, c.pathMin = some child ∧ ∀ other ∈ children, id child ≤ id other
  tail : ∃ child ∈ children, c.pathMax = some child ∧ ∀ other ∈ children, id other ≤ id child

/-- For every child of the earlier list the later one has one with an id at
most as large, and one with an id at least as large. -/
structure Spans (earlier later : List CStr) : Prop where
  below : ∀ child ∈ earlier, ∃ other ∈ later, id other ≤ id child
  above : ∀ child ∈ earlier, ∃ other ∈ later, id child ≤ id other

variable {id}

-- ---------------------------------------------------------------------------
-- The two ends are two scans
-- ---------------------------------------------------------------------------

open OrderDual (toDual)

theorem scanChild_min (c : Client) (data : CStr) :
    ((c.scanChild id data).idMin, (c.scanChild id data).pathMin) =
      keepLeast id (c.idMin, c.pathMin) data := by
  simp only [Client.scanChild, keepLeast]
  split <;> split <;> rfl

theorem scanChild_max (c : Client) (data : CStr) :
    (toDual (c.scanChild id data).idMax, (c.scanChild id data).pathMax) =
      keepLeast (toDual ∘ id) (toDual c.idMax, c.pathMax) data := by
  simp only [Client.scanChild, keepLeast, Function.comp_apply, OrderDual.toDual_le_toDual]
  by_cases hmin : c.idMin ≥ id data <;> by_cases hmax : c.idMax ≤ id data <;> simp [hmin, hmax]

theorem scan_min (c : Client) (children : List CStr) :
    ((children.foldl (Client.scanChild id) c).idMin,
      (children.foldl (Client.scanChild id) c).pathMin) =
      children.foldl (keepLeast id) (c.idMin, c.pathMin) := by
  induction children generalizing c with
  | nil => rfl
  | cons data children ih => rw [List.foldl_cons, List.foldl_cons, ih, scanChild_min]

theorem scan_max (c : Client) (children : List CStr) :
    (toDual (children.foldl (Client.scanChild id) c).idMax,
      (children.foldl (Client.scanChild id) c).pathMax) =
      children.foldl (keepLeast (toDual ∘ id)) (toDual c.idMax, c.pathMax) := by
  induction children generalizing c with
  | nil => rfl
  | cons data children ih => rw [List.foldl_cons, List.foldl_cons, ih, scanChild_max]

/-- Only the lists received count, and they count as one. -/
theorem watched_eq (events : List WatcherEvent) (c : Client) :
    events.foldl (childWatcher id) c =
      (events.filterMap WatcherEvent.received).flatten.foldl (Client.scanChild id) c := by
  induction events generalizing c with
  | nil => rfl
  | cons event events ih =>
    rw [List.foldl_cons, ih, List.filterMap_cons, childWatcher, WatcherEvent.received]
    cases event.connected <;> cases event.child <;> simp

theorem watched_pathMin (events : List WatcherEvent) :
    (watched id events).pathMin =
      ((events.filterMap WatcherEvent.received).flatten.foldl (keepLeast id)
        (99999999, none)).2 := by
  rw [watched, watched_eq]
  exact congrArg Prod.snd (scan_min .start _)

theorem watched_pathMax (events : List WatcherEvent) :
    (watched id events).pathMax =
      ((events.filterMap WatcherEvent.received).flatten.foldl (keepLeast (toDual ∘ id))
        (toDual (-1), none)).2 := by
  rw [watched, watched_eq]
  exact congrArg Prod.snd (scan_max .start _)

theorem pairwise_spans_iff {lists : List (List CStr)} :
    lists.Pairwise (Spans id) ↔
      lists.Pairwise (Reaches id) ∧ lists.Pairwise (Reaches (toDual ∘ id)) := by
  rw [← List.pairwise_and_iff]
  exact List.Pairwise.iff fun _ _ => ⟨fun h => ⟨h.below, h.above⟩, fun h => ⟨h.1, h.2⟩⟩

theorem namesEnds_iff (hr : event.received = some children) :
    (watched id (before ++ [event])).NamesEnds id children ↔
      IsLeastOf id ((before.filterMap WatcherEvent.received ++ [children]).flatten.foldl
        (keepLeast id) (99999999, none)).2 children ∧
      IsLeastOf (toDual ∘ id) ((before.filterMap WatcherEvent.received ++ [children]).flatten.foldl
        (keepLeast (toDual ∘ id)) (toDual (-1), none)).2 children := by
  have hlist : (before ++ [event]).filterMap WatcherEvent.received =
      before.filterMap WatcherEvent.received ++ [children] := by simp [hr]
  rw [← hlist, ← watched_pathMin, ← watched_pathMax]
  exact ⟨fun h => ⟨h.head, h.tail⟩, fun h => ⟨h.1, h.2⟩⟩

/-- After each event that brings a list the paths name its ends exactly when
every list spans those received before it. -/
theorem ends_tracked {events : List WatcherEvent}
    (hlists : ∀ children ∈ events.filterMap WatcherEvent.received,
      children ≠ [] ∧ ∀ child ∈ children, 0 ≤ id child ∧ id child ≤ 99999999) :
    (∀ before event, before ++ [event] <+: events → ∀ children, event.received = some children →
        (watched id (before ++ [event])).NamesEnds id children) ↔
      (events.filterMap WatcherEvent.received).Pairwise (Spans id) := by
  have hhead := tracks_iff_reaches id 99999999 fun children hc =>
    ⟨(hlists children hc).1, fun child hchild => ((hlists children hc).2 child hchild).2⟩
  have htail := tracks_iff_reaches (toDual ∘ id) (toDual (-1)) fun children hc =>
    ⟨(hlists children hc).1, fun child hchild => by
      have hpos := ((hlists children hc).2 child hchild).1
      exact OrderDual.toDual_le_toDual.mpr (by omega)⟩
  rw [forall_prefix_filterMap] at hhead htail
  rw [pairwise_spans_iff, ← hhead, ← htail]
  constructor
  · intro h
    exact ⟨fun before event hb children hr => ((namesEnds_iff hr).mp (h before event hb _ hr)).1,
      fun before event hb children hr => ((namesEnds_iff hr).mp (h before event hb _ hr)).2⟩
  · intro h before event hb children hr
    exact (namesEnds_iff hr).mpr ⟨h.1 before event hb _ hr, h.2 before event hb _ hr⟩

end

/-- The counter in the name of a sequential node: its last ten digits. -/
def sequenceId (name : CStr) : Int :=
  (name.bytes.drop (name.bytes.length - 10)).foldl (fun n digit => 10 * n + (digit.toNat - 48)) 0

def chainNode (digit : UInt8) : CStr :=
  .ofBytes ([110, 111, 100, 101, 48, 48, 48, 48, 48, 48, 48, 48, 48] ++ [48 + digit])

def childEvent (digits : List UInt8) : WatcherEvent := ⟨true, true, digits.map chainNode⟩

theorem ends_tracked_joins :
    (watched sequenceId [childEvent [3, 4], childEvent [4, 2, 5, 3]]).NamesEnds sequenceId
      ([4, 2, 5, 3].map chainNode) := by
  have hlists : ∀ children ∈
      [childEvent [3, 4], childEvent [4, 2, 5, 3]].filterMap WatcherEvent.received,
      children ≠ [] ∧ ∀ child ∈ children, 0 ≤ sequenceId child ∧ sequenceId child ≤ 99999999 := by
    decide
  have hspans : ([childEvent [3, 4], childEvent [4, 2, 5, 3]].filterMap
      WatcherEvent.received).Pairwise (Spans sequenceId) :=
    .cons (fun _ h => by
      rw [List.mem_singleton.mp h]
      exact ⟨by decide, by decide⟩) (List.pairwise_singleton _ _)
  exact (ends_tracked hlists).mpr hspans [childEvent [3, 4]] _ (List.prefix_refl _) _ rfl

/-- The head leaves: `pathMin` goes on naming it. -/
theorem head_not_tracked :
    (watched sequenceId [childEvent [1, 2], childEvent [2, 3]]).pathMin = some (chainNode 1) ∧
      ¬ (watched sequenceId [childEvent [1, 2], childEvent [2, 3]]).NamesEnds sequenceId
        ([2, 3].map chainNode) := by
  have hmin : (watched sequenceId [childEvent [1, 2], childEvent [2, 3]]).pathMin =
      some (chainNode 1) := by decide
  refine ⟨hmin, fun h => ?_⟩
  obtain ⟨child, hchild, hpath, -⟩ := h.head
  rw [hmin] at hpath
  cases hpath
  revert hchild
  decide

end HashMapStorage

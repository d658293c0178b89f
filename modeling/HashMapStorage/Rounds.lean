import HashMapStorage.Machine.Refinement
import HashMapStorage.Machine.Scan
import HashMapStorage.SlotBounds

/-!
# What a poll round serves

A round serves the slots with POLLIN in order, each once, except one that moves
up into the place of a slot shifted out for POLLHUP: there `i` has been counted
on. Such a client is one slot further ahead in the next round, so it is not
passed over for ever. All of this counts in rounds that begin: `network_receive`
does not return on a client that closes its end, and then no other round does.
-/

namespace HashMapStorage

open Machine

def LoopStep.isPoll : LoopStep → Bool
  | .poll _ => true
  | _ => false

/-- `poll` returns without an error. -/
def LoopStep.isRound : LoopStep → Bool
  | .poll (some _) => true
  | _ => false

def PollFd.pollin (p : PollFd) : Bool := p.revents.pollin

namespace ServerLoop

variable {s s' : ServerLoop}

/-- The slots in use behind that of the listening socket. -/
def slots (s : ServerLoop) : List PollFd := (s.connections.take s.nfds).drop 1

def serving (s : ServerLoop) : LoopStep → ServerLoop → List PollFd
  | .serve _ _, _ => if s.serves then [s.slot s.i] else []
  | _, _ => []

-- ---------------------------------------------------------------------------
-- The slots
-- ---------------------------------------------------------------------------

structure Framed (s : ServerLoop) : Prop where
  sized : Sized s.connections s.nfds
  scan : s.pc = .scan → 1 ≤ s.i
  hup : s.pc = .hup → 1 ≤ s.i ∧ s.i < s.nfds

theorem live_slots (s : ServerLoop) : s.live = s.slots.map PollFd.fd := rfl

theorem slots_getElem (hs : Sized s.connections s.nfds) (hi : 1 ≤ s.i) (hn : s.i < s.nfds) :
    s.slots[s.i - 1]? = some (s.slot s.i) := by
  have hlen : s.i < s.connections.length := by
    rw [hs.length]
    exact Nat.lt_of_lt_of_le hn hs.le
  have hsum : 1 + (s.i - 1) = s.i := by omega
  rw [slots, List.getElem?_drop, hsum, List.getElem?_take_of_lt hn, slot,
    List.getD_eq_getElem?_getD, List.getElem?_eq_getElem hlen, Option.getD_some]

theorem slots_length (hs : Sized s.connections s.nfds) : s.slots.length = s.nfds - 1 := by
  have hle := hs.le
  rw [slots, List.length_drop, List.length_take, hs.length, Nat.min_eq_left hle]

theorem shift_slots (hs : Sized s.connections s.nfds) (hi : 1 ≤ s.i) (hn : s.i < s.nfds)
    (beyond : PollFd) : (s.clearSlot.shift beyond).slots = s.slots.eraseIdx (s.i - 1) := by
  obtain ⟨first, before, x, mid, rest, hc, hi', hn', hshift⟩ := shift_split hs hi hn beyond
  have hnew : (s.clearSlot.shift beyond).nfds = ((first :: before) ++ mid).length := by
    simp only [shift, clearSlot, List.length_append]
    omega
  have hslots : s.slots = before ++ x :: mid := by
    rw [slots, hc, hn', List.take_length_add_append]
    simp
  have hfirst : s.i - 1 = before.length := by rw [hi', List.length_cons, Nat.add_sub_cancel]
  rw [slots, hshift, hnew, List.take_left, hslots, hfirst]
  simp [List.eraseIdx_append_of_length_le]

theorem leave_slots (hs : Sized s.connections s.nfds) (hi : 1 ≤ s.i) (hn : s.i < s.nfds)
    (fd : Int) (beyond : PollFd) :
    Sized (((s.close fd).clearSlot).shift beyond).connections
        (((s.close fd).clearSlot).shift beyond).nfds ∧
      (((s.close fd).clearSlot).shift beyond).slots = s.slots.eraseIdx (s.i - 1) :=
  ⟨(shift_live (s := s.close fd) hs hi hn beyond).1, shift_slots (s := s.close fd) hs hi hn beyond⟩

theorem clear_slots (hi : 1 ≤ s.i) (fd : Int) :
    ((s.close fd).clearSlot).slots = s.slots.set (s.i - 1) { s.slot s.i with fd := -1 } := by
  have hset : ((s.close fd).clearSlot).slots =
      ((s.connections.set s.i { s.slot s.i with fd := -1 }).take s.nfds).drop 1 := rfl
  rw [hset, List.take_set, List.drop_set, if_neg (Nat.not_lt.mpr hi), slots]

-- ---------------------------------------------------------------------------
-- One step
-- ---------------------------------------------------------------------------

/-- How slot `i` can come out of being served: it is shifted out, its descriptor
is cleared, or POLLHUP is tested next. -/
inductive Serves (s s' : ServerLoop) : Prop
  | gone : s'.pc = .scan → s'.i = s.i → s'.slots = s.slots.eraseIdx (s.i - 1) → Serves s s'
  | cleared : s'.pc = .scan → s'.i = s.i + 1 →
      s'.slots = s.slots.set (s.i - 1) { s.slot s.i with fd := -1 } → Serves s s'
  | stays : s'.pc = .hup → s'.i = s.i → s'.nfds = s.nfds → s'.slots = s.slots → Serves s s'

theorem serves_cases (hs : Sized s.connections s.nfds) (hi : 1 ≤ s.i) (hn : s.i < s.nfds)
    (outcome : Outcome) (beyond : PollFd) :
    Sized (s.served outcome beyond).connections (s.served outcome beyond).nfds ∧
      Serves s (s.served outcome beyond) := by
  obtain ⟨hsized, hslots⟩ := leave_slots hs hi hn (s.slot s.i).fd beyond
  cases outcome with
  | unreadable closed =>
    cases closed with
    | false => exact ⟨hsized, .gone rfl rfl hslots⟩
    | true =>
      obtain ⟨hsized, hslots⟩ :=
        leave_slots (s := s.close (s.slot s.i).fd) hs hi hn (s.slot s.i).fd beyond
      exact ⟨hsized, .gone rfl rfl hslots⟩
  | bad => exact ⟨hsized, .gone rfl rfl hslots⟩
  | rejected =>
    have hset : Sized (s.served .rejected beyond).connections (s.served .rejected beyond).nfds :=
      ⟨by simpa [served, clearSlot, close] using hs.length, hs.pos, hs.le⟩
    exact ⟨hset, .cleared rfl rfl (clear_slots hi _)⟩
  | answered | unanswered => exact ⟨hs, .stays rfl rfl rfl rfl⟩

theorem accepted_slots (hs : Sized s.connections s.nfds) (hroom : s.nfds < NFDESC) (fd : Int) :
    Sized (s.accepted fd).connections (s.accepted fd).nfds ∧
      s.slots <+: (s.accepted fd).slots := by
  obtain ⟨hlen, hpos, hle⟩ := hs
  have htake : ∀ p : PollFd, (s.connections.set s.nfds p).take s.nfds = s.connections.take s.nfds :=
    fun p => List.take_set_of_le (Nat.le_refl _)
  by_cases hopen : fd > 0
  · simp only [accepted, hopen, ↓reduceIte, slots, List.set_set]
    refine ⟨⟨by simp [hlen], Nat.le_add_left .., hroom⟩, ?_⟩
    rw [← htake]
    exact (List.take_prefix_take_left (Nat.le_succ _)).drop 1
  · simp only [accepted, hopen, ↓reduceIte, slots]
    exact ⟨⟨by simp [hlen], hpos, hle⟩, by rw [htake]⟩

theorem framed_step (h : s.Framed) (hs : s.step a = some s') : s'.Framed := by
  obtain ⟨hsized, hscan, hhup⟩ := h
  have hpolled : ∀ revents, Sized (s.pollResult revents) s.nfds := fun revents =>
    ⟨by simpa [pollResult] using hsized.length, hsized.pos, hsized.le⟩
  cases step_cases hs with
  | signal => exact ⟨hsized, hscan, hhup⟩
  | again | leave | failed | scanned => exact ⟨hsized, by simp, by simp⟩
  | ready => exact ⟨hpolled _, by simp, by simp⟩
  | quiet => exact ⟨hpolled _, fun _ => Nat.le_refl 1, by simp⟩
  | accept hat hpollin hroom =>
    exact ⟨(accepted_slots hsized hroom _).1, fun _ => Nat.le_refl 1, by simp⟩
  | noAccept => exact ⟨hsized, fun _ => Nat.le_refl 1, by simp⟩
  | @serve outcome beyond hat hn =>
    obtain ⟨hsized', hserves⟩ := serves_cases hsized (hscan hat) hn outcome beyond
    cases hserves with
    | gone hpc hi => exact ⟨hsized', fun _ => hi ▸ hscan hat, by simp [hpc]⟩
    | cleared hpc hi => exact ⟨hsized', fun _ => hi ▸ Nat.le_add_left .., by simp [hpc]⟩
    | stays hpc hi hnfds => exact ⟨hsized', by simp [hpc], fun _ => ⟨hi ▸ hscan hat, by omega⟩⟩
  | noServe hat hn => exact ⟨hsized, by simp, fun _ => ⟨hscan hat, hn⟩⟩
  | hup hat =>
    obtain ⟨hi, hn⟩ := hhup hat
    exact ⟨(leave_slots hsized hi hn _ _).1, fun _ => Nat.le_add_left 1 s.i, by simp⟩
  | noHup => exact ⟨hsized, fun _ => Nat.le_add_left 1 s.i, by simp⟩

theorem start_framed (listening_socket : Int) : (ServerLoop.start listening_socket).Framed :=
  ⟨⟨rfl, Nat.le_refl 1, (by decide : 1 ≤ NFDESC)⟩, by simp [start], by simp [start]⟩

theorem run_framed (hr : run step (.start listening_socket) as = some s) : s.Framed :=
  run_keeps (fun _ _ _ h _ hs => framed_step h hs) (start_framed _)
    (along_of_forall fun _ _ _ => trivial) hr

-- ---------------------------------------------------------------------------
-- A round
-- ---------------------------------------------------------------------------

def visit (p : PollFd) : Fate PollFd → Prop
  | .kept p' => p.revents.pollhup = false ∧ p' = p ∨
      p.revents.pollin = true ∧ p' = { p with fd := -1 }
  | .removed => p.revents.pollin = true
  | .skipping => p.revents.pollhup = true

/-- The scan has visited the slots `ahead`. When the last slot has been shifted
out for POLLHUP, `i` is one too far. -/
structure At (slots : List PollFd) (i : Nat) (ahead waiting : List PollFd) : Prop where
  split : slots = ahead ++ waiting
  index : ahead.length + 1 = i ∨ waiting = [] ∧ ahead.length + 1 < i

/-- What the rest of a round serves, of the slots that it still has to visit. -/
def Ends (s s' : ServerLoop) (attended : List PollFd) : Prop :=
  match s.pc with
  | .poll => s'.slots = s.slots ∧ attended = []
  | .scan => ∀ ahead waiting, At s.slots s.i ahead waiting →
      ∃ seen left, Scanned visit waiting seen left ∧ s'.slots = ahead ++ left ∧
        attended = seen.filter PollFd.pollin
  | .hup => ∀ ahead p waiting, s.slots = ahead ++ p :: waiting → ahead.length + 1 = s.i →
      ∃ seen left, Scanned visit (p :: waiting) (p :: seen) left ∧ s'.slots = ahead ++ left ∧
        attended = seen.filter PollFd.pollin
  | _ => True

theorem slot_of_split (h : s.slots = ahead ++ p :: waiting) (hi : ahead.length + 1 = s.i)
    (hs : Sized s.connections s.nfds) (hn : s.i < s.nfds) : s.slot s.i = p := by
  have hget := slots_getElem hs (by omega) hn
  rw [h, ← hi, Nat.add_sub_cancel, List.getElem?_append_right (Nat.le_refl _), Nat.sub_self] at hget
  exact (Option.some.inj (hi ▸ hget)).symm

theorem At.waits (h : At s.slots s.i ahead waiting) (hs : Sized s.connections s.nfds)
    (hn : s.i < s.nfds) :
    ahead.length + 1 = s.i ∧ ∃ rest, waiting = s.slot s.i :: rest := by
  obtain ⟨hsplit, hindex⟩ := h
  have hlen := slots_length hs
  rw [hsplit, List.length_append] at hlen
  have hi : ahead.length + 1 = s.i := hindex.resolve_right fun ⟨hnil, hlt⟩ => by
    rw [hnil, List.length_nil] at hlen
    omega
  obtain ⟨p, rest, rfl⟩ := List.exists_cons_of_length_pos (l := waiting) (by omega)
  exact ⟨hi, rest, by rw [slot_of_split hsplit hi hs hn]⟩

theorem At.scanned (h : At s.slots s.i ahead waiting) (hs : Sized s.connections s.nfds)
    (hn : s.nfds ≤ s.i) :
    waiting = [] := by
  obtain ⟨hsplit, hindex | ⟨hnil, -⟩⟩ := h
  · have hlen := slots_length hs
    rw [hsplit, List.length_append] at hlen
    exact List.length_eq_zero_iff.mp (by omega)
  · exact hnil

theorem ends_serve (hs : Sized s.connections s.nfds) (hn : s.i < s.nfds) (hat : s.pc = .scan)
    (hset : (s.slot s.i).pollin = true) (hserves : Serves s s₁)
    (hrest : Ends s₁ s' attended) : Ends s s' (s.slot s.i :: attended) := by
  simp only [Ends, hat]
  intro ahead waiting hsplit
  obtain ⟨hi, rest, rfl⟩ := hsplit.waits hs hn
  have hfirst : s.i - 1 = ahead.length := by omega
  cases hserves with
  | gone hpc hi₁ hslots =>
    have hat₁ : At s₁.slots s₁.i ahead rest := by
      refine ⟨?_, .inl (by omega)⟩
      rw [hslots, hsplit.split, hfirst, List.eraseIdx_append_of_length_le (Nat.le_refl _)]
      simp
    simp only [Ends, hpc] at hrest
    obtain ⟨seen, left, hscan, hleft, rfl⟩ := hrest ahead rest hat₁
    exact ⟨_ :: seen, left, .removed hset hscan, hleft, by rw [List.filter_cons_of_pos hset]⟩
  | cleared hpc hi₁ hslots =>
    have hat₁ : At s₁.slots s₁.i (ahead ++ [{ s.slot s.i with fd := -1 }]) rest := by
      refine ⟨?_, .inl (by rw [List.length_append, List.length_singleton]; omega)⟩
      rw [hslots, hsplit.split, hfirst, List.set_append_right _ _ (Nat.le_refl _)]
      simp
    simp only [Ends, hpc] at hrest
    obtain ⟨seen, left, hscan, hleft, rfl⟩ := hrest _ rest hat₁
    refine ⟨_ :: seen, _ :: left, .kept (.inr ⟨hset, rfl⟩) hscan, ?_,
      by rw [List.filter_cons_of_pos hset]⟩
    rw [hleft, List.append_assoc, List.singleton_append]
  | stays hpc hi₁ _ hslots =>
    simp only [Ends, hpc] at hrest
    obtain ⟨seen, left, hscan, hleft, rfl⟩ :=
      hrest ahead (s.slot s.i) rest (hslots.trans hsplit.split) (by omega)
    exact ⟨_, left, hscan, hleft, by rw [List.filter_cons_of_pos hset]⟩

theorem ends_hup (hs : Sized s.connections s.nfds) (hn : s.i < s.nfds) (hat : s.pc = .hup)
    (hset : (s.slot s.i).revents.pollhup = true) (hpc : s₁.pc = .scan) (hi₁ : s₁.i = s.i + 1)
    (hslots : s₁.slots = s.slots.eraseIdx (s.i - 1)) (hrest : Ends s₁ s' attended) :
    Ends s s' attended := by
  simp only [Ends, hat]
  intro ahead p waiting hsplit hi
  have hfirst : s.i - 1 = ahead.length := by omega
  rw [slot_of_split hsplit hi hs hn] at hset
  have hslots₁ : s₁.slots = ahead ++ waiting := by
    rw [hslots, hsplit, hfirst, List.eraseIdx_append_of_length_le (Nat.le_refl _)]
    simp
  simp only [Ends, hpc] at hrest
  cases waiting with
  | nil =>
    obtain ⟨seen, left, hscan, hleft, rfl⟩ := hrest ahead [] ⟨hslots₁, .inr ⟨rfl, by omega⟩⟩
    cases hscan
    exact ⟨[], [], .last hset, hleft, rfl⟩
  | cons q waiting =>
    have hat₁ : At s₁.slots s₁.i (ahead ++ [q]) waiting :=
      ⟨by simp [hslots₁], .inl (by rw [List.length_append, List.length_singleton]; omega)⟩
    obtain ⟨seen, left, hscan, hleft, rfl⟩ := hrest _ waiting hat₁
    exact ⟨seen, q :: left, .skipping hset hscan, by simp [hleft], rfl⟩

theorem round_ends_step (h : s.Framed) (hround : a.isPoll = false) (hs : s.step a = some s₁)
    (hrest : Ends s₁ s' attended) : Ends s s' (s.serving a s₁ ++ attended) := by
  cases step_cases hs with
  | signal =>
    rw [show s.serving .signal { s with interrupt := 0 } = [] from rfl, List.nil_append]
    exact hrest
  | again hat | leave hat => simp only [Ends, hat]
  | failed | ready | quiet => cases hround
  | accept hat | noAccept hat => simp only [Ends, hat]
  | @serve outcome beyond hat hn hserves =>
    have hset : (s.slot s.i).revents.pollin = true := by simpa [serves, hat, hn] using hserves
    have hone : s.serving (.serve outcome beyond) (s.served outcome beyond) = [s.slot s.i] :=
      if_pos hserves
    rw [hone]
    exact ends_serve h.sized hn hat hset (serves_cases h.sized (h.scan hat) hn _ _).2 hrest
  | @noServe outcome beyond hat hn hserves =>
    have hset : (s.slot s.i).revents.pollin = false := by simpa [serves, hat, hn] using hserves
    have hnone : s.serving (.serve outcome beyond) { s with pc := .hup } = [] := by
      simp [serving, hserves]
    rw [hnone, List.nil_append]
    simp only [Ends, hat] at hrest ⊢
    intro ahead waiting hsplit
    obtain ⟨hi, rest, rfl⟩ := hsplit.waits h.sized hn
    obtain ⟨seen, left, hscan, hleft, rfl⟩ := hrest ahead _ rest hsplit.split hi
    exact ⟨_, left, hscan, hleft, by rw [List.filter_cons_of_neg (by simp [PollFd.pollin, hset])]⟩
  | @scanned outcome beyond hat hn =>
    have hserves : s.serves = false := by simp [serves, Nat.not_lt.mpr hn]
    have hnone : s.serving (.serve outcome beyond) { s with pc := .poll } = [] := by
      simp [serving, hserves]
    rw [hnone, List.nil_append]
    simp only [Ends, hat] at hrest ⊢
    intro ahead waiting hsplit
    obtain rfl := hsplit.scanned h.sized hn
    obtain ⟨hslots, rfl⟩ := hrest
    exact ⟨[], [], .nil, hslots.trans hsplit.split, rfl⟩
  | @hup beyond hat hset =>
    obtain ⟨hi, hn⟩ := h.hup hat
    have hslots := (leave_slots h.sized hi hn (s.slot s.i).fd beyond).2
    refine ends_hup h.sized hn hat hset ?_ ?_ ?_ hrest
    · rfl
    · rfl
    · exact hslots
  | noHup hat hset =>
    obtain ⟨hi, hn⟩ := h.hup hat
    simp only [Ends, hat] at hrest ⊢
    intro ahead p waiting hsplit hi
    rw [slot_of_split hsplit hi h.sized hn] at hset
    have hat₁ : At s.slots (s.i + 1) (ahead ++ [p]) waiting :=
      ⟨by simp [hsplit], .inl (by rw [List.length_append, List.length_singleton, hi])⟩
    obtain ⟨seen, left, hscan, hleft, rfl⟩ := hrest _ waiting hat₁
    refine ⟨seen, p :: left, .kept (.inl ⟨hset, rfl⟩) hscan, ?_, rfl⟩
    rw [hleft, List.append_assoc, List.singleton_append]

theorem round_run (h : s.Framed) (hround : ∀ a ∈ as, a.isPoll = false)
    (hr : run step s as = some s') (hend : s'.pc = .poll) :
    Ends s s' (history step serving s as) := by
  induction as generalizing s with
  | nil =>
    cases hr
    simp [Ends, hend, history]
  | cons a as ih =>
    obtain ⟨s₁, hs₁, hr⟩ := run_cons hr
    have hrest := ih (framed_step h hs₁) (fun b hb => hround b (List.mem_cons_of_mem _ hb)) hr
    simp only [history, hs₁]
    exact round_ends_step h (hround a (List.mem_cons_self ..)) hs₁ hrest

-- ---------------------------------------------------------------------------
-- Who is passed over
-- ---------------------------------------------------------------------------

def Holds (slots : List PollFd) (fd : Int) (k : Nat) : Prop :=
  ∃ p, slots[k]? = some p ∧ p.fd = fd

def Waits (slots : List PollFd) (fd : Int) (k : Nat) : Prop :=
  ∃ p, slots[k]? = some p ∧ p.fd = fd ∧ p.pollin = true

/-- `poll` finds data on the descriptor. -/
def Reports (s : ServerLoop) (fd : Int) : LoopStep → Prop
  | .poll (some revents) => ∀ k, s.live[k]? = some fd → (revents (k + 1)).pollin = true
  | _ => True

instance (s : ServerLoop) (fd : Int) : (a : LoopStep) → Decidable (s.Reports fd a)
  | .poll (some revents) =>
    decidable_of_iff (∀ k < s.live.length, s.live[k]? = some fd → (revents (k + 1)).pollin = true)
      ⟨fun h k hk => h k (List.getElem?_eq_some_iff.mp hk).1 hk, fun h k _ hk => h k hk⟩
  | .poll none | .signal | .test | .accept _ | .serve .. | .hup _ =>
    inferInstanceAs (Decidable True)

def ServesFd (s : ServerLoop) (fd : Int) : LoopStep → Prop
  | .serve _ _ => s.serves = true ∧ (s.slot s.i).fd = fd
  | _ => False

/-- The client is served before more than `n` further rounds begin: the scan will
come to its slot, or has passed over it and left it at most `n`-th. -/
def Pending (s : ServerLoop) (fd : Int) (n : Nat) : Prop :=
  match s.pc with
  | .accept => ∃ k, k ≤ n ∧ Waits s.slots fd k
  | .scan => (∃ k, s.i ≤ k + 1 ∧ k ≤ n ∧ Waits s.slots fd k) ∨
      ∃ k, k + 1 < s.i ∧ k < n ∧ Holds s.slots fd k
  | .hup => (∃ k, s.i < k + 1 ∧ k ≤ n ∧ Waits s.slots fd k) ∨
      ∃ k, k + 1 < s.i ∧ k < n ∧ Holds s.slots fd k
  | _ => ∃ k, k < n ∧ Holds s.slots fd k

theorem pollResult_slots {p : PollFd} (hs : Sized s.connections s.nfds) (hk : s.slots[k]? = some p)
    (hfd : 0 ≤ p.fd) (revents : Nat → Revents) :
    (((s.pollResult revents).take s.nfds).drop 1)[k]? =
      some { p with revents := revents (k + 1) } := by
  obtain ⟨hlt, -⟩ := List.getElem?_eq_some_iff.mp hk
  rw [slots_length hs] at hlt
  have hn : k + 1 < s.nfds := by omega
  rw [slots, List.getElem?_drop, Nat.add_comm, List.getElem?_take_of_lt hn] at hk
  rw [List.getElem?_drop, Nat.add_comm, List.getElem?_take_of_lt hn, pollResult,
    List.getElem?_mapIdx, hk]
  simp [hn, Int.not_lt.mpr hfd]

theorem pending_poll (hs : Sized s.connections s.nfds) (hk : ∃ k, k < n ∧ Holds s.slots fd k)
    (hfd : 0 ≤ fd) (hreports : s.Reports fd (.poll (some revents))) :
    ∃ m, m + 1 = n ∧ ∃ k, k ≤ m ∧ Waits (((s.pollResult revents).take s.nfds).drop 1) fd k := by
  obtain ⟨k, hkn, p, hp, rfl⟩ := hk
  refine ⟨n - 1, by omega, k, by omega, _, pollResult_slots hs hp hfd revents, rfl, hreports k ?_⟩
  rw [live_slots, List.getElem?_map, hp, Option.map_some]

theorem pending_serve (hs : Sized s.connections s.nfds) (hi : 1 ≤ s.i) (hn : s.i < s.nfds)
    (hat : s.pc = .scan) (hp : s.Pending fd n) (hnot : (s.slot s.i).fd ≠ fd)
    (hserves : Serves s s₁) : s₁.Pending fd n := by
  have hslot := slots_getElem hs hi hn
  simp only [Pending, hat] at hp
  -- the client is behind slot `i`, or before it
  have hp' : (∃ k, s.i ≤ k ∧ k ≤ n ∧ Waits s.slots fd k) ∨
      ∃ k, k + 1 < s.i ∧ k < n ∧ Holds s.slots fd k := by
    refine hp.imp_left fun ⟨k, hik, hkn, p, hk, hpfd, hset⟩ => ⟨k, ?_, hkn, p, hk, hpfd, hset⟩
    by_contra hlt
    obtain rfl : k = s.i - 1 := by omega
    rw [hslot] at hk
    exact hnot (Option.some.inj hk ▸ hpfd)
  cases hserves with
  | gone hpc hi₁ hslots =>
    simp only [Pending, hpc, hi₁, hslots]
    refine hp'.imp ?_ ?_
    · rintro ⟨k, hik, hkn, p, hk, hwaits⟩
      refine ⟨k - 1, by omega, by omega, p, ?_, hwaits⟩
      rw [List.getElem?_eraseIdx_of_ge (by omega), Nat.sub_add_cancel (by omega), hk]
    · rintro ⟨k, hik, hkn, p, hk, hpfd⟩
      exact ⟨k, hik, hkn, p, by rw [List.getElem?_eraseIdx_of_lt (by omega), hk], hpfd⟩
  | cleared hpc hi₁ hslots =>
    simp only [Pending, hpc, hi₁, hslots]
    refine hp'.imp ?_ ?_
    · rintro ⟨k, hik, hkn, p, hk, hwaits⟩
      exact ⟨k, by omega, hkn, p, by rw [List.getElem?_set_ne (by omega), hk], hwaits⟩
    · rintro ⟨k, hik, hkn, p, hk, hpfd⟩
      exact ⟨k, by omega, hkn, p, by rw [List.getElem?_set_ne (by omega), hk], hpfd⟩
  | stays hpc hi₁ _ hslots =>
    simp only [Pending, hpc, hi₁, hslots]
    exact hp'.imp_left fun ⟨k, hik, hkn, hwaits⟩ => ⟨k, by omega, hkn, hwaits⟩

theorem pending_hup {s₁ : ServerLoop} (hi : 1 ≤ s.i) (hat : s.pc = .hup) (hp : s.Pending fd n)
    (hpc : s₁.pc = .scan) (hi₁ : s₁.i = s.i + 1)
    (hslots : s₁.slots = s.slots.eraseIdx (s.i - 1)) : s₁.Pending fd n := by
  simp only [Pending, hat] at hp
  simp only [Pending, hpc, hi₁, hslots]
  rcases hp with ⟨k, hik, hkn, p, hk, hpfd, hset⟩ | ⟨k, hik, hkn, p, hk, hpfd⟩
  · have hk' : (s.slots.eraseIdx (s.i - 1))[k - 1]? = some p := by
      rw [List.getElem?_eraseIdx_of_ge (by omega), Nat.sub_add_cancel (by omega), hk]
    by_cases hnext : k = s.i
    · exact .inr ⟨k - 1, by omega, by omega, p, hk', hpfd⟩
    · exact .inl ⟨k - 1, by omega, by omega, p, hk', hpfd, hset⟩
  · exact .inr ⟨k, by omega, hkn, p, by rw [List.getElem?_eraseIdx_of_lt (by omega), hk], hpfd⟩

theorem pending_step (h : s.Framed) (hp : s.Pending fd n) (hfd : 0 ≤ fd)
    (hreports : s.Reports fd a) (hnot : ¬ s.ServesFd fd a) (hs : s.step a = some s') :
    ∃ n', s'.Pending fd n' ∧ n' + (if a.isRound then 1 else 0) ≤ n := by
  cases step_cases hs with
  | signal => exact ⟨n, hp, Nat.le_refl _⟩
  | again hat | leave hat | failed hat =>
    simp only [Pending, hat] at hp
    exact ⟨n, hp, Nat.le_refl _⟩
  | ready hat =>
    simp only [Pending, hat] at hp
    obtain ⟨m, hm, hwaits⟩ := pending_poll h.sized hp hfd hreports
    exact ⟨m, hwaits, Nat.le_of_eq hm⟩
  | quiet hat =>
    simp only [Pending, hat] at hp
    obtain ⟨m, hm, k, hkm, hwaits⟩ := pending_poll h.sized hp hfd hreports
    exact ⟨m, .inl ⟨k, Nat.le_add_left .., hkm, hwaits⟩, Nat.le_of_eq hm⟩
  | @accept fd' hat hpollin hroom =>
    simp only [Pending, hat] at hp
    obtain ⟨k, hkn, p, hk, hwaits⟩ := hp
    obtain ⟨added, hslots⟩ := (accepted_slots h.sized hroom fd').2
    have hk' : (s.accepted fd').slots[k]? = some p := by
      rw [← hslots, List.getElem?_append_left (List.getElem?_eq_some_iff.mp hk).1, hk]
    exact ⟨n, .inl ⟨k, Nat.le_add_left .., hkn, p, hk', hwaits⟩, Nat.le_refl _⟩
  | noAccept hat =>
    simp only [Pending, hat] at hp
    obtain ⟨k, hkn, hwaits⟩ := hp
    exact ⟨n, .inl ⟨k, Nat.le_add_left .., hkn, hwaits⟩, Nat.le_refl _⟩
  | @serve outcome beyond hat hn hserves =>
    have hi := h.scan hat
    have hother : (s.slot s.i).fd ≠ fd := fun heq => hnot ⟨hserves, heq⟩
    exact ⟨n, pending_serve h.sized hi hn hat hp hother
      (serves_cases h.sized hi hn outcome beyond).2, Nat.le_refl _⟩
  | noServe hat hn hserves =>
    have hset : (s.slot s.i).pollin = false := by
      simpa [serves, PollFd.pollin, hat, hn] using hserves
    have hslot := slots_getElem h.sized (h.scan hat) hn
    simp only [Pending, hat] at hp
    refine ⟨n, hp.imp_left ?_, Nat.le_refl _⟩
    rintro ⟨k, hik, hkn, p, hk, hpfd, hready⟩
    refine ⟨k, ?_, hkn, p, hk, hpfd, hready⟩
    by_contra hlt
    obtain rfl : k = s.i - 1 := by simp only at hlt; omega
    rw [hslot] at hk
    cases hk
    rw [hready] at hset
    cases hset
  | scanned hat hn =>
    simp only [Pending, hat] at hp
    refine ⟨n, ?_, Nat.le_refl _⟩
    rcases hp with ⟨k, hik, hkn, p, hk, -⟩ | ⟨k, -, hkn, hholds⟩
    · obtain ⟨hlt, -⟩ := List.getElem?_eq_some_iff.mp hk
      rw [slots_length h.sized] at hlt
      omega
    · exact ⟨k, hkn, hholds⟩
  | @hup beyond hat =>
    obtain ⟨hi, hn⟩ := h.hup hat
    have hslots := (leave_slots h.sized hi hn (s.slot s.i).fd beyond).2
    refine ⟨n, pending_hup hi hat hp ?_ ?_ ?_, Nat.le_refl _⟩
    · rfl
    · rfl
    · exact hslots
  | noHup hat =>
    simp only [Pending, hat] at hp
    refine ⟨n, hp.imp ?_ ?_, Nat.le_refl _⟩
    · rintro ⟨k, hik, hrest⟩
      exact ⟨k, hik, hrest⟩
    · rintro ⟨k, hik, hrest⟩
      exact ⟨k, Nat.lt_succ_of_lt hik, hrest⟩

/-- As long as the client is not served, no more than `n` rounds begin. -/
theorem pending_rounds (h : s.Framed) (hp : s.Pending fd n) (hfd : 0 ≤ fd)
    (ha : Along step (fun s a => s.Reports fd a ∧ ¬ s.ServesFd fd a) s as)
    (hr : run step s as = some s') : as.countP LoopStep.isRound ≤ n := by
  induction as generalizing s n with
  | nil => exact Nat.zero_le n
  | cons a as ih =>
    obtain ⟨s₁, hs₁, hr⟩ := run_cons hr
    obtain ⟨⟨hreports, hnot⟩, ha⟩ := ha.next hs₁
    obtain ⟨n', hp', hle⟩ := pending_step h hp hfd hreports hnot hs₁
    have hrest := ih (framed_step h hs₁) hp' ha hr
    rw [List.countP_cons]
    omega

end ServerLoop

/-- A round, from the first slot to the next call of `poll`: it serves slots
that were ready, in order and each at most once, all of them where nobody has
hung up, and it misses a slot only directly behind one with POLLHUP. -/
theorem round_serves {s s' : ServerLoop}
    (hreach : run ServerLoop.step (.start listening_socket) before = some s) (hpc : s.pc = .scan)
    (hi : s.i = 1) (hr : run ServerLoop.step s as = some s')
    (hround : ∀ a ∈ as, a.isPoll = false) (hend : s'.pc = .poll) :
    (history ServerLoop.step ServerLoop.serving s as).Sublist
        (s.slots.filter PollFd.pollin) ∧
      ((∀ p ∈ s.slots, p.revents.pollhup = false) →
        history ServerLoop.step ServerLoop.serving s as =
          s.slots.filter PollFd.pollin) ∧
      ∀ p ∈ s.slots, p.revents.pollin = true →
        p ∉ history ServerLoop.step ServerLoop.serving s as →
          p ∈ s'.slots ∧ ∃ q, [q, p] <:+: s.slots ∧ q.revents.pollhup = true := by
  have hrun := ServerLoop.round_run (ServerLoop.run_framed hreach) hround hr hend
  simp only [ServerLoop.Ends, hpc] at hrun
  obtain ⟨seen, left, hscan, hleft, hserved⟩ := hrun [] s.slots ⟨rfl, .inl hi.symm⟩
  rw [hserved]
  refine ⟨hscan.sublist.filter _, fun hnone => ?_, fun p hp hset hnot => ?_⟩
  · rw [hscan.all fun p hp hhup => by
      simp only [ServerLoop.visit, hnone p hp, Bool.false_eq_true] at hhup]
  · have hunseen : p ∉ seen := fun hseen => hnot (List.mem_filter.mpr ⟨hseen, hset⟩)
    obtain ⟨⟨q, hinfix, -, hhup⟩, hkept⟩ := hscan.missed hp hunseen
    exact ⟨by rwa [hleft, List.nil_append], q, hinfix, hhup⟩

def twoClients : List LoopStep :=
  .test :: (List.range 2).flatMap fun k : Nat =>
    .poll (some (pollinAt 0)) :: .accept (k + 5) :: quietScan (k + 1)

def firstHangsUp : Nat → Revents := fun k =>
  if k = 1 then ⟨true, true⟩ else if k = 2 then ⟨true, false⟩ else .none

def shortRound : List LoopStep := [.serve .answered anyFd, .hup anyFd, .serve .answered anyFd]

def twoConnected : ServerLoop where
  connections := ⟨3, true, ⟨true, false⟩⟩ :: ⟨5, true, .none⟩ :: ⟨6, true, .none⟩ ::
    List.replicate (NFDESC - 3) ⟨-1, false, .none⟩
  nfds := 3
  i := 3
  interrupt := 1
  pc := .poll
  clients := [5, 6]

def missesSecond : ServerLoop :=
  { twoConnected with connections := twoConnected.pollResult firstHangsUp, i := 1, pc := .scan }

theorem round_serves_first :
    history ServerLoop.step ServerLoop.serving missesSecond shortRound =
        [⟨5, true, ⟨true, true⟩⟩] ∧
      ∃ s', run ServerLoop.step missesSecond shortRound = some s' ∧
        ⟨6, true, ⟨true, false⟩⟩ ∈ s'.slots := by
  have hreach : run ServerLoop.step (.start 3)
      (twoClients ++ [.poll (some firstHangsUp), .accept (-1)]) = some missesSecond := by rfl
  have hserved : history ServerLoop.step ServerLoop.serving missesSecond shortRound =
      [⟨5, true, ⟨true, true⟩⟩] := by rfl
  obtain ⟨s', hr, hend⟩ :
      ∃ s', run ServerLoop.step missesSecond shortRound = some s' ∧ s'.pc = .poll := ⟨_, rfl, rfl⟩
  obtain ⟨-, -, hmissed⟩ := round_serves hreach rfl rfl hr (by decide) hend
  refine ⟨hserved, s', hr, (hmissed _ ?_ rfl ?_).1⟩
  · decide
  · rw [hserved]
    decide

/-- A wait that is bounded in rounds: a client in slot `k + 1` on which every `poll`
finds data is served before a `k + 2`-nd round begins, whatever slots are shifted
out meanwhile. -/
theorem ready_client_served {s s' : ServerLoop}
    (hreach : run ServerLoop.step (.start listening_socket) before = some s) (hpc : s.pc = .poll)
    (hslot : s.live[k]? = some fd) (hfd : 0 ≤ fd)
    (hready : Along ServerLoop.step (fun s a => s.Reports fd a) s as)
    (hr : run ServerLoop.step s as = some s') (hlong : k + 1 < as.countP LoopStep.isRound) :
    ∃ first outcome beyond rest s₁, as = first ++ .serve outcome beyond :: rest ∧
      run ServerLoop.step s first = some s₁ ∧ s₁.serves = true ∧ (s₁.slot s₁.i).fd = fd := by
  have hpending : s.Pending fd (k + 1) := by
    rw [ServerLoop.live_slots, List.getElem?_map, Option.map_eq_some_iff] at hslot
    obtain ⟨p, hp, hpfd⟩ := hslot
    simp only [ServerLoop.Pending, hpc]
    exact ⟨k, Nat.lt_succ_self k, p, hp, hpfd⟩
  have hserved : ¬ Along ServerLoop.step (fun s a => ¬ s.ServesFd fd a) s as := by
    intro hnever
    have hle := ServerLoop.pending_rounds (ServerLoop.run_framed hreach) hpending hfd
      (hready.both hnever) hr
    omega
  obtain ⟨first, a, rest, s₁, rfl, hfirst, hserve⟩ := not_along hr hserved
  cases a with
  | serve outcome beyond =>
    obtain ⟨hserves, heq⟩ := not_not.mp hserve
    exact ⟨first, outcome, beyond, rest, s₁, rfl, hfirst, hserves, heq⟩
  | signal | test | poll | accept | hup => exact absurd id hserve

def threeRounds : List LoopStep :=
  .poll (some firstHangsUp) :: .accept (-1) :: shortRound ++
    .poll (some (pollinAt 1)) :: .accept (-1) :: shortRound ++ [.poll (some (pollinAt 1))]

theorem ready_client_served_second :
    ∃ first outcome beyond rest s₁, threeRounds = first ++ .serve outcome beyond :: rest ∧
      run ServerLoop.step twoConnected first = some s₁ ∧ s₁.serves = true ∧
      (s₁.slot s₁.i).fd = 6 := by
  have hreach : run ServerLoop.step (.start 3) twoClients = some twoConnected := by rfl
  have hready : Along ServerLoop.step (fun s a => s.Reports 6 a) twoConnected threeRounds := by
    decide
  exact ready_client_served hreach rfl (k := 1) rfl (by decide) hready rfl (by decide)

end HashMapStorage

import HashMapStorage.ServerLoop
import Mathlib.Data.List.Perm.Basic

/-!
# The connection table and the open sockets

At the start of a poll round the slots from 1 on hold the open client sockets,
each once. Serving a slot keeps this as long as `invoke` accepts the message,
and as long as a reply fails only where the slot has POLLHUP: the two other
ways to lose a client close its socket and leave the slot in the table.
-/

namespace HashMapStorage

open Machine

theorem shiftLoop_eq (beyond x : PollFd) (before mid rest : List PollFd) :
    shiftLoop beyond (mid.length + 1) before.length (before ++ x :: (mid ++ rest)) =
      before ++ mid ++ rest.headD beyond :: rest := by
  induction mid generalizing before x with
  | nil => cases rest <;> simp [shiftLoop]
  | cons y mid ih =>
    have hset : (before ++ x :: (y :: mid ++ rest)).set before.length y =
        (before ++ [y]) ++ y :: (mid ++ rest) := by simp
    have hnext : (before ++ x :: (y :: mid ++ rest)).getD (before.length + 1) beyond = y := by simp
    have hrest := ih y (before ++ [y])
    rw [List.length_append, List.length_singleton] at hrest
    rw [List.length_cons, shiftLoop, hnext, hset, hrest]
    simp

namespace ServerLoop

variable {s s' : ServerLoop}

-- ---------------------------------------------------------------------------
-- What a step does
-- ---------------------------------------------------------------------------

def serves (s : ServerLoop) : Bool :=
  s.pc = .scan && s.i < s.nfds && (s.slot s.i).revents.pollin

def served (s : ServerLoop) (outcome : Outcome) (beyond : PollFd) : ServerLoop :=
  let fd := (s.slot s.i).fd
  match outcome with
  | .unreadable closed =>
    let s := if closed then s.close fd else s
    { ((s.close fd).clearSlot).shift beyond with pc := .scan }
  | .bad => { ((s.close fd).clearSlot).shift beyond with pc := .scan }
  | .rejected => { (s.close fd).clearSlot with i := s.i + 1, pc := .scan }
  | .answered => { s with pc := .hup }
  | .unanswered => { s.close fd with pc := .hup }

theorem serve_some (h : s.serve outcome beyond = some s') : s' = s.served outcome beyond := by
  simp only [serve] at h
  split at h
  · cases h
  · cases outcome <;> exact (Option.some.inj h).symm

/-- The ways a step can go, each with what it requires. -/
inductive Steps (s : ServerLoop) : LoopStep → ServerLoop → Prop
  | signal : Steps s .signal { s with interrupt := 0 }
  | again : s.pc = .test → s.interrupt ≠ 0 → Steps s .test { s with pc := .poll }
  | leave : s.pc = .test → s.interrupt = 0 → Steps s .test { s with pc := .done }
  | failed : s.pc = .poll → Steps s (.poll none) { s with pc := .test }
  | ready : s.pc = .poll → ready (s.pollResult revents) s.nfds = true →
      Steps s (.poll (some revents)) { s with connections := s.pollResult revents, pc := .accept }
  | quiet : s.pc = .poll → ready (s.pollResult revents) s.nfds = false →
      Steps s (.poll (some revents))
        { s with connections := s.pollResult revents, i := 1, pc := .scan }
  | accept : s.pc = .accept → (s.slot 0).revents.pollin = true → s.nfds < NFDESC →
      s.acceptable fd = true → Steps s (.accept fd) { s.accepted fd with i := 1, pc := .scan }
  | noAccept : s.pc = .accept → ¬ ((s.slot 0).revents.pollin = true ∧ s.nfds < NFDESC) →
      Steps s (.accept fd) { s with i := 1, pc := .scan }
  | serve : s.pc = .scan → s.i < s.nfds → s.serves = true →
      Steps s (.serve outcome beyond) (s.served outcome beyond)
  | noServe : s.pc = .scan → s.i < s.nfds → s.serves = false →
      Steps s (.serve outcome beyond) { s with pc := .hup }
  | scanned : s.pc = .scan → s.nfds ≤ s.i → Steps s (.serve outcome beyond) { s with pc := .poll }
  | hup : s.pc = .hup → (s.slot s.i).revents.pollhup = true →
      Steps s (.hup beyond)
        { ((s.close (s.slot s.i).fd).clearSlot).shift beyond with i := s.i + 1, pc := .scan }
  | noHup : s.pc = .hup → (s.slot s.i).revents.pollhup = false →
      Steps s (.hup beyond) { s with i := s.i + 1, pc := .scan }

theorem step_cases (hs : s.step a = some s') : s.Steps a s' := by
  cases a with
  | signal =>
    cases hs
    exact .signal
  | test =>
    cases hat : s.pc <;> simp only [step, hat, reduceCtorEq] at hs
    by_cases hint : s.interrupt = 0
    · rw [if_neg (not_not_intro hint)] at hs
      cases hs
      exact .leave hat hint
    · rw [if_pos hint] at hs
      cases hs
      exact .again hat hint
  | poll result =>
    cases hat : s.pc <;> simp only [step, hat, reduceCtorEq] at hs
    cases result with
    | none =>
      cases hs
      exact .failed hat
    | some revents =>
      dsimp only at hs
      split at hs
      · rename_i hready
        cases hs
        exact .ready hat hready
      · rename_i hready
        cases hs
        exact .quiet hat (Bool.not_eq_true _ ▸ hready)
  | accept fd =>
    cases hat : s.pc <;> simp only [step, hat, reduceCtorEq] at hs
    split at hs
    · rename_i hcall
      split at hs
      · rename_i hfd
        cases hs
        exact .accept hat hcall.1 hcall.2 hfd
      · cases hs
    · rename_i hcall
      cases hs
      exact .noAccept hat hcall
  | serve outcome beyond =>
    cases hat : s.pc <;> simp only [step, hat, reduceCtorEq] at hs
    split at hs
    · rename_i hn
      split at hs
      · rename_i hin
        rw [serve_some hs]
        exact .serve hat hn (by simp [serves, hat, hn, hin])
      · rename_i hin
        cases hs
        exact .noServe hat hn (by simp [serves, hin])
    · rename_i hn
      cases hs
      exact .scanned hat (Nat.le_of_not_lt hn)
  | hup beyond =>
    cases hat : s.pc <;> simp only [step, hat, reduceCtorEq] at hs
    split at hs
    · rename_i hset
      cases hs
      exact .hup hat hset
    · rename_i hset
      cases hs
      exact .noHup hat (Bool.not_eq_true _ ▸ hset)

-- ---------------------------------------------------------------------------
-- The table
-- ---------------------------------------------------------------------------

def live (s : ServerLoop) : List Int := ((s.connections.take s.nfds).drop 1).map PollFd.fd

structure Sized (connections : List PollFd) (nfds : Nat) : Prop where
  length : connections.length = NFDESC
  pos : 1 ≤ nfds
  le : nfds ≤ NFDESC

structure Owned (fds clients : List Int) : Prop where
  perm : fds.Perm clients
  nodup : clients.Nodup

theorem split (hs : Sized s.connections s.nfds) (hi : 1 ≤ s.i) (hn : s.i < s.nfds) :
    ∃ first before x mid rest, s.connections = (first :: before) ++ x :: (mid ++ rest) ∧
      before.length + 1 = s.i ∧ mid.length + 1 = s.nfds - s.i := by
  obtain ⟨hlen, -, hle⟩ := hs
  have hsplit := List.take_append_drop s.i s.connections
  have hsplit' := List.take_append_drop (s.nfds - s.i) (s.connections.drop s.i)
  obtain ⟨first, before, hb⟩ : ∃ first before, s.connections.take s.i = first :: before :=
    List.exists_cons_of_length_pos (by rw [List.length_take]; omega)
  obtain ⟨x, mid, hm⟩ : ∃ x mid, (s.connections.drop s.i).take (s.nfds - s.i) = x :: mid :=
    List.exists_cons_of_length_pos (by rw [List.length_take, List.length_drop]; omega)
  have hblen := congrArg List.length hb
  have hmlen := congrArg List.length hm
  simp only [List.length_take, List.length_drop, List.length_cons] at hblen hmlen
  refine ⟨first, before, x, mid, (s.connections.drop s.i).drop (s.nfds - s.i), ?_, by omega,
    by omega⟩
  rw [hm, List.cons_append] at hsplit'
  rw [hsplit', ← hb, hsplit]

/-- The slots when slot `i` is shifted out: the one behind the last in use has
been copied, or what lies behind the array. -/
theorem shift_split (hs : Sized s.connections s.nfds) (hi : 1 ≤ s.i) (hn : s.i < s.nfds)
    (beyond : PollFd) :
    ∃ first before x mid rest, s.connections = (first :: before) ++ x :: (mid ++ rest) ∧
      s.i = (first :: before).length ∧ s.nfds = (first :: before).length + (mid.length + 1) ∧
      (s.clearSlot.shift beyond).connections =
        (first :: before) ++ mid ++ rest.headD beyond :: rest := by
  obtain ⟨first, before, x, mid, rest, hc, hbefore, hmid⟩ := split hs hi hn
  have hi' : s.i = (first :: before).length := by rw [List.length_cons, hbefore]
  refine ⟨first, before, x, mid, rest, hc, hi', by omega, ?_⟩
  have hset : s.clearSlot.connections =
      (first :: before) ++ { s.slot s.i with fd := -1 } :: (mid ++ rest) := by
    simp only [clearSlot]
    generalize ({ s.slot s.i with fd := -1 } : PollFd) = y
    rw [hc, hi', List.set_append_right _ _ (Nat.le_refl _), Nat.sub_self, List.set_cons_zero]
  have hcount : s.clearSlot.nfds - s.clearSlot.i = mid.length + 1 := hmid.symm
  have hat : s.clearSlot.i = (first :: before).length := hi'
  rw [shift, hset, hcount, hat, shiftLoop_eq]

theorem shift_live (hs : Sized s.connections s.nfds) (hi : 1 ≤ s.i) (hn : s.i < s.nfds)
    (beyond : PollFd) :
    Sized (s.clearSlot.shift beyond).connections (s.clearSlot.shift beyond).nfds ∧
      (s.clearSlot.shift beyond).live = s.live.eraseIdx (s.i - 1) ∧
      s.live[s.i - 1]? = some (s.slot s.i).fd := by
  obtain ⟨first, before, x, mid, rest, hc, hi', hn', hshift⟩ := shift_split hs hi hn beyond
  obtain ⟨hlen, hpos, hle⟩ := hs
  have hfirst : s.i - 1 = before.length := by
    rw [hi', List.length_cons, Nat.add_sub_cancel]
  have hlive : s.live = before.map PollFd.fd ++ x.fd :: mid.map PollFd.fd := by
    rw [live, hc, hn', List.take_length_add_append]
    simp
  refine ⟨⟨?_, ?_, ?_⟩, ?_, ?_⟩
  · rw [hshift, ← hlen, hc]
    simp
    omega
  · simp only [shift, clearSlot]
    omega
  · simp only [shift, clearSlot]
    omega
  · have hnew : (s.clearSlot.shift beyond).nfds = ((first :: before) ++ mid).length := by
      simp only [shift, clearSlot, List.length_append]
      omega
    rw [live, hshift, hnew, List.take_left, hlive, hfirst]
    simp [List.eraseIdx_append_of_length_le]
  · have hslot : s.slot s.i = x := by
      rw [slot, hc, hi']
      simp
    rw [hlive, hslot, hfirst]
    simp

def Vacant (s : ServerLoop) : Prop :=
  (s.slot s.i).fd ∉ s.clients ∧ Owned (s.live.eraseIdx (s.i - 1)) s.clients

/-- A vacant slot has POLLHUP, so it will be shifted out. -/
def Sound (s : ServerLoop) : Prop :=
  Sized s.connections s.nfds ∧
    match s.pc with
    | .hup => 1 ≤ s.i ∧ s.i < s.nfds ∧
        (Owned s.live s.clients ∨ ((s.slot s.i).revents.pollhup = true ∧ s.Vacant))
    | .scan => 1 ≤ s.i ∧ Owned s.live s.clients
    | _ => Owned s.live s.clients

theorem close_absent (h : fd ∉ s.clients) : close s fd = s := by
  unfold close
  rw [List.erase_of_not_mem h]

theorem close_live (h : Owned s.live s.clients) (hfd : s.live[k]? = some fd) :
    Owned (s.live.eraseIdx k) (s.close fd).clients ∧ fd ∉ (s.close fd).clients := by
  obtain ⟨hlt, hget⟩ := List.getElem?_eq_some_iff.mp hfd
  have hmem : fd ∈ s.clients := h.perm.mem_iff.mp (hget ▸ List.getElem_mem hlt)
  have hfront : (fd :: s.live.eraseIdx k).Perm s.live := hget ▸ List.getElem_cons_eraseIdx_perm hlt
  have hperm := (hfront.trans h.perm).trans (List.perm_cons_erase hmem)
  exact ⟨⟨hperm.cons_inv, h.nodup.erase fd⟩, h.nodup.not_mem_erase⟩

theorem close_slot (hs : Sized s.connections s.nfds) (hi : 1 ≤ s.i) (hn : s.i < s.nfds)
    (h : Owned s.live s.clients) : (s.close (s.slot s.i).fd).Vacant := by
  obtain ⟨-, -, hfd⟩ := shift_live hs hi hn (s.slot 0)
  obtain ⟨howned, hclosed⟩ := close_live h hfd
  exact ⟨hclosed, howned⟩

theorem leave (hs : Sized s.connections s.nfds) (hi : 1 ≤ s.i) (hn : s.i < s.nfds)
    (h : Owned s.live s.clients ∨ s.Vacant) (beyond : PollFd) :
    let s' := ((s.close (s.slot s.i).fd).clearSlot).shift beyond
    Sized s'.connections s'.nfds ∧ Owned s'.live s'.clients := by
  intro s'
  have hvacant : (s.close (s.slot s.i).fd).Vacant := by
    rcases h with h | h
    · exact close_slot hs hi hn h
    · rwa [close_absent h.1]
  have hs' : Sized (s.close (s.slot s.i).fd).connections (s.close (s.slot s.i).fd).nfds := hs
  obtain ⟨hsized, hlive, -⟩ := shift_live hs' hi hn beyond
  exact ⟨hsized, hlive ▸ hvacant.2⟩

theorem pollResult_live (s : ServerLoop) (revents : Nat → Revents) :
    ((s.pollResult revents).take s.nfds).map PollFd.fd =
      (s.connections.take s.nfds).map PollFd.fd := by
  refine List.ext_getElem (by simp [pollResult]) fun k hk hk' => ?_
  simp only [pollResult, List.getElem_map, List.getElem_take, List.getElem_mapIdx]
  split <;> rfl

theorem accepted_live (hs : Sized s.connections s.nfds) (h : Owned s.live s.clients)
    (hn : s.nfds < NFDESC) (hfd : s.acceptable fd = true) :
    Sized (s.accepted fd).connections (s.accepted fd).nfds ∧
      Owned (s.accepted fd).live (s.accepted fd).clients := by
  obtain ⟨hlen, hpos, hle⟩ := hs
  have hroom : s.nfds < s.connections.length := by omega
  by_cases hopen : fd > 0
  · have hfresh : fd ∉ s.clients := by
      simp only [acceptable, Bool.or_eq_true, Bool.and_eq_true, decide_eq_true_eq] at hfd
      rcases hfd with rfl | ⟨-, hfd⟩
      · nomatch hopen
      · exact hfd
    have hlive : (s.accepted fd).live = s.live ++ [fd] := by
      simp only [live, accepted, if_pos hopen, List.set_set]
      rw [List.take_add_one, List.getElem?_set_self hroom, List.take_set_of_le (Nat.le_refl _)]
      have hlong : 1 ≤ (s.connections.take s.nfds).length := by
        rw [List.length_take]
        omega
      rw [List.drop_append_of_le_length hlong]
      simp
    refine ⟨⟨by simp [accepted, hopen, hlen], by simp [accepted, hopen], ?_⟩, ?_, ?_⟩
    · simp only [accepted, hopen, ↓reduceIte]
      omega
    · rw [hlive]
      simpa [accepted, hopen] using h.perm.append_right [fd]
    · simp only [accepted, hopen, ↓reduceIte, List.nodup_append]
      refine ⟨h.nodup, by simp, ?_⟩
      rintro a ha b hb rfl
      rw [List.mem_singleton.mp hb] at ha
      exact hfresh ha
  · have hlive : (s.accepted fd).live = s.live := by
      simp only [live, accepted, if_neg hopen]
      rw [List.take_set_of_le (Nat.le_refl _)]
    have hsame : (s.accepted fd).nfds = s.nfds := by simp [accepted, hopen]
    refine ⟨⟨by simp [accepted, hopen, hlen], hsame ▸ hpos, hsame ▸ hle⟩, ?_, ?_⟩
    · rw [hlive]
      simpa [accepted, hopen] using h.perm
    · simpa [accepted, hopen] using h.nodup

/-- `invoke` does not reject the message served, and a reply fails only where
the slot has POLLHUP as well. -/
def mild (s : ServerLoop) : LoopStep → Bool
  | .serve .rejected _ => !s.serves
  | .serve .unanswered _ => !s.serves || (s.slot s.i).revents.pollhup
  | _ => true

theorem sound_serve (hs : Sized s.connections s.nfds) (hi : 1 ≤ s.i) (hn : s.i < s.nfds)
    (h : Owned s.live s.clients) (hr : outcome ≠ .rejected)
    (hu : outcome = .unanswered → (s.slot s.i).revents.pollhup = true) (beyond : PollFd) :
    (s.served outcome beyond).Sound := by
  cases outcome with
  | unreadable closed =>
    cases closed with
    | false =>
      obtain ⟨hsized, howned⟩ := leave hs hi hn (.inl h) beyond
      exact ⟨hsized, hi, howned⟩
    | true =>
      have hvacant := close_slot hs hi hn h
      obtain ⟨hsized, howned⟩ :=
        leave (s := s.close (s.slot s.i).fd) hs hi hn (.inr hvacant) beyond
      exact ⟨hsized, hi, howned⟩
  | bad =>
    obtain ⟨hsized, howned⟩ := leave hs hi hn (.inl h) beyond
    exact ⟨hsized, hi, howned⟩
  | rejected => exact absurd rfl hr
  | answered => exact ⟨hs, hi, hn, .inl h⟩
  | unanswered => exact ⟨hs, hi, hn, .inr ⟨hu rfl, close_slot hs hi hn h⟩⟩

theorem sound_poll (h : s.Sound) (hat : s.pc = .poll) (revents : Nat → Revents) :
    Sized (s.pollResult revents) s.nfds ∧
      Owned ((((s.pollResult revents).take s.nfds).drop 1).map PollFd.fd) s.clients := by
  obtain ⟨hsized, howned⟩ := h
  simp only [hat] at howned
  refine ⟨⟨by simpa [pollResult] using hsized.length, hsized.pos, hsized.le⟩, ?_⟩
  rw [List.map_drop, s.pollResult_live revents, ← List.map_drop]
  exact howned

theorem sound_step (h : s.Sound) (ha : s.mild a = true) (hs : s.step a = some s') : s'.Sound := by
  obtain ⟨hsized, hpc⟩ := h
  cases step_cases hs with
  | signal => exact ⟨hsized, hpc⟩
  | again hat | leave hat | failed hat =>
    simp only [hat] at hpc
    exact ⟨hsized, hpc⟩
  | ready hat =>
    obtain ⟨hsized, howned⟩ := sound_poll ⟨hsized, hpc⟩ hat _
    exact ⟨hsized, howned⟩
  | quiet hat =>
    obtain ⟨hsized, howned⟩ := sound_poll ⟨hsized, hpc⟩ hat _
    exact ⟨hsized, Nat.le_refl 1, howned⟩
  | accept hat hpollin hroom hfd =>
    simp only [hat] at hpc
    obtain ⟨hsized, howned⟩ := accepted_live hsized hpc hroom hfd
    exact ⟨hsized, Nat.le_refl 1, howned⟩
  | noAccept hat =>
    simp only [hat] at hpc
    exact ⟨hsized, Nat.le_refl 1, hpc⟩
  | serve hat hn hserves =>
    simp only [hat] at hpc
    refine sound_serve hsized hpc.1 hn hpc.2 ?_ ?_ _
    · rintro rfl
      simp [mild, hserves] at ha
    · rintro rfl
      simpa [mild, hserves] using ha
  | noServe hat hn =>
    simp only [hat] at hpc
    exact ⟨hsized, hpc.1, hn, .inl hpc.2⟩
  | scanned hat =>
    simp only [hat] at hpc
    exact ⟨hsized, hpc.2⟩
  | hup hat =>
    simp only [hat] at hpc
    obtain ⟨hi, hn, howned⟩ := hpc
    obtain ⟨hsized, howned⟩ := leave hsized hi hn (howned.imp_right And.right) _
    exact ⟨hsized, Nat.le_add_left 1 s.i, howned⟩
  | noHup hat hset =>
    simp only [hat] at hpc
    obtain ⟨hi, hn, howned | ⟨hhup, -⟩⟩ := hpc
    · exact ⟨hsized, Nat.le_add_left 1 s.i, howned⟩
    · simp [hset] at hhup

/-- At the start of a poll round: the slots from 1 on are the open client
sockets, each in one slot, and there are as many of them as `nfds` says. -/
structure TableSound (s : ServerLoop) : Prop where
  pos : 1 ≤ s.nfds
  le : s.nfds ≤ NFDESC
  distinct : s.live.Nodup
  clients : ∀ fd, fd ∈ s.live ↔ fd ∈ s.clients
  count : s.nfds = 1 + s.clients.length

theorem Sound.table (h : s.Sound) (hpc : s.pc = .poll) : s.TableSound := by
  obtain ⟨⟨hlen, hpos, hle⟩, howned⟩ := h
  rw [hpc] at howned
  obtain ⟨hperm, hnodup⟩ : Owned s.live s.clients := howned
  refine ⟨hpos, hle, hperm.nodup_iff.mpr hnodup, fun fd => hperm.mem_iff, ?_⟩
  rw [← hperm.length_eq, live]
  simp
  omega

end ServerLoop

theorem start_sound (listening_socket : Int) : (ServerLoop.start listening_socket).Sound :=
  ⟨⟨rfl, Nat.le_refl 1, (by decide : 1 ≤ NFDESC)⟩, .refl _, List.nodup_nil⟩

/-- In every run in which no message is rejected by `invoke` and a reply fails
only on a slot with POLLHUP, the table is sound at the start of each poll round. -/
theorem connections_sound {s : ServerLoop}
    (ha : Along ServerLoop.step (fun s a => s.mild a = true) (.start listening_socket) as)
    (hr : run ServerLoop.step (.start listening_socket) as = some s) (hpc : s.pc = .poll) :
    s.TableSound :=
  (run_keeps (fun _ _ _ h ha hs => ServerLoop.sound_step h ha hs) (start_sound _) ha hr).table hpc

def pollinAt (k : Nat) : Nat → Revents := fun j => if j = k then ⟨true, false⟩ else .none

def anyFd : PollFd := ⟨0, false, .none⟩

def oneClient (outcome : Outcome) (rest : List LoopStep) : List LoopStep :=
  [.test, .poll (some (pollinAt 0)), .accept 5, .serve .answered anyFd, .hup anyFd,
    .serve .answered anyFd, .poll (some (pollinAt 1)), .accept (-1), .serve outcome anyFd] ++
    rest ++ [.serve .answered anyFd]

theorem connections_sound_bad :
    ∃ s, run ServerLoop.step (.start 3) (oneClient .bad []) = some s ∧ s.TableSound := by
  have ha : Along ServerLoop.step (fun s a => s.mild a = true) (.start 3) (oneClient .bad []) := by
    decide
  exact ⟨_, rfl, connections_sound ha rfl rfl⟩

/-- A rejected message leaves -1 in slot 1, a reply that fails the number of a
closed socket; `nfds` counts both. -/
theorem connections_not_sound :
    (∃ s, run ServerLoop.step (.start 3) (oneClient .rejected []) = some s ∧ s.pc = .poll ∧
      ¬ s.TableSound) ∧
    ∃ s, run ServerLoop.step (.start 3) (oneClient .unanswered [.hup anyFd]) = some s ∧
      s.pc = .poll ∧ ¬ s.TableSound := by
  refine ⟨⟨_, rfl, rfl, fun h => ?_⟩, _, rfl, rfl, fun h => ?_⟩
  · nomatch h.count
  · nomatch h.count

end HashMapStorage

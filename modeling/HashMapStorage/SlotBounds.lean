import HashMapStorage.ServerLoopLaws

/-!
# Which slots the server loop touches

The compaction loops copy `connections[j+1]` up to `j = nfds - 1`, so with all
slots in use they read the slot behind the array. Otherwise what they copy last
is a slot that is not in use, and those stay clean: `fd` is -1 and no event is
set.
-/

namespace HashMapStorage

open Machine

/-- The indices that a compaction loop uses, `left` rounds from `j` on. -/
def shiftTouched : (left j : Nat) → List Nat
  | 0, _ => []
  | left + 1, j => j :: (j + 1) :: shiftTouched left (j + 1)

theorem mem_shiftTouched : k ∈ shiftTouched left j ↔ 0 < left ∧ j ≤ k ∧ k ≤ j + left := by
  induction left generalizing j with
  | zero => simp [shiftTouched]
  | succ left ih =>
    simp only [shiftTouched, List.mem_cons, ih]
    omega

namespace ServerLoop

variable {s s' : ServerLoop}

/-- The indices on `connections` that a step uses: `poll` gets the first `nfds`
slots. -/
def touched (s : ServerLoop) : LoopStep → List Nat
  | .signal => []
  | .test => []
  | .poll _ => List.range s.nfds
  | .accept fd =>
    if (s.slot 0).revents.pollin ∧ s.nfds < NFDESC then
      0 :: s.nfds :: 0 :: (if fd > 0 then [s.nfds] else [])
    else [0]
  | .serve outcome _ =>
    if s.i < s.nfds then
      s.i ::
        if (s.slot s.i).revents.pollin then
          match outcome with
          | .unreadable _ => shiftTouched (s.nfds - s.i) s.i
          | .bad => shiftTouched (s.nfds - s.i) s.i
          | _ => []
        else []
    else []
  | .hup _ =>
    s.i :: if (s.slot s.i).revents.pollhup then shiftTouched (s.nfds - s.i) s.i else []

def InBounds (s : ServerLoop) (a : LoopStep) : Prop := ∀ k ∈ s.touched a, k < NFDESC

/-- The slots from `nfds` on have no descriptor and no event. -/
def Clean (s : ServerLoop) : Prop := ∀ p ∈ s.connections.drop s.nfds, p.fd = -1 ∧ p.revents = .none

instance (s : ServerLoop) : Decidable s.Clean := inferInstanceAs (Decidable (∀ p ∈ _, _))

def removes (s : ServerLoop) : LoopStep → Bool
  | .serve (.unreadable _) _ => s.serves
  | .serve .bad _ => s.serves
  | .hup _ => s.pc = .hup && (s.slot s.i).revents.pollhup
  | _ => false

/-- No connection is shifted out while all slots are in use. -/
def spares (s : ServerLoop) (a : LoopStep) : Bool := !(s.removes a && s.nfds = NFDESC)

-- ---------------------------------------------------------------------------
-- One step
-- ---------------------------------------------------------------------------

structure Tidy (s : ServerLoop) : Prop where
  sized : Sized s.connections s.nfds
  clean : s.Clean
  scan : s.pc = .scan → 1 ≤ s.i
  hup : s.pc = .hup → 1 ≤ s.i ∧ s.i < s.nfds

theorem Tidy.shift (h : s.Tidy) (hi : 1 ≤ s.i) (hn : s.i < s.nfds) (hroom : s.nfds < NFDESC)
    (beyond : PollFd) :
    Sized (s.clearSlot.shift beyond).connections (s.clearSlot.shift beyond).nfds ∧
      (s.clearSlot.shift beyond).Clean := by
  obtain ⟨hsized, -, -⟩ := shift_live h.sized hi hn beyond
  obtain ⟨first, before, x, mid, rest, hc, -, hnfds, hshift⟩ := shift_split h.sized hi hn beyond
  refine ⟨hsized, ?_⟩
  have hrest : s.connections.drop s.nfds = rest := by
    rw [hc, hnfds, List.drop_length_add_append]
    simp
  have hclean : ∀ p ∈ rest, p.fd = -1 ∧ p.revents = .none := hrest ▸ h.clean
  obtain ⟨y, rest, rfl⟩ : ∃ y rest', rest = y :: rest' := by
    refine List.exists_cons_of_length_pos ?_
    have hlen := h.sized.length
    rw [← hrest, List.length_drop]
    omega
  have hdrop : (s.clearSlot.shift beyond).connections.drop (s.clearSlot.shift beyond).nfds =
      y :: y :: rest := by
    have hnew : (s.clearSlot.shift beyond).nfds = ((first :: before) ++ mid).length := by
      simp only [ServerLoop.shift, clearSlot, List.length_append]
      omega
    rw [hshift, hnew, List.drop_left, List.headD_cons]
  rw [Clean, hdrop]
  simpa using hclean

theorem drop_pollResult (s : ServerLoop) (revents : Nat → Revents) :
    (s.pollResult revents).drop s.nfds = s.connections.drop s.nfds := by
  refine List.ext_getElem (by simp [pollResult]) fun k hk hk' => ?_
  have hnot : ¬ s.nfds + k < s.nfds := by omega
  simp [pollResult, hnot]

theorem Tidy.accepted (h : s.Tidy) (hroom : s.nfds < NFDESC) (hfd : s.acceptable fd = true) :
    Sized (s.accepted fd).connections (s.accepted fd).nfds ∧ (s.accepted fd).Clean := by
  obtain ⟨hlen, hpos, hle⟩ := h.sized
  have hin : s.nfds < s.connections.length := by omega
  have hdrop : s.connections.drop s.nfds = s.slot s.nfds :: s.connections.drop (s.nfds + 1) := by
    rw [List.drop_eq_getElem_cons hin]
    simp [slot, hin]
  have hclean : ∀ p ∈ s.slot s.nfds :: s.connections.drop (s.nfds + 1),
      p.fd = -1 ∧ p.revents = .none := hdrop ▸ h.clean
  obtain ⟨hslot, hrest⟩ := List.forall_mem_cons.mp hclean
  by_cases hopen : fd > 0
  · refine ⟨⟨by simp [ServerLoop.accepted, hopen, hlen], by simp [ServerLoop.accepted, hopen], ?_⟩,
      ?_⟩
    · simp only [ServerLoop.accepted, hopen, ↓reduceIte]
      omega
    · simp only [Clean, ServerLoop.accepted, hopen, ↓reduceIte, List.set_set]
      rwa [List.drop_set_of_lt (Nat.lt_succ_self _)]
  · have hneg : fd = -1 := by
      simp only [acceptable, Bool.or_eq_true, Bool.and_eq_true, decide_eq_true_eq] at hfd
      exact hfd.resolve_right fun h => hopen h.1
    refine ⟨⟨by simp [ServerLoop.accepted, hopen, hlen], by simpa [ServerLoop.accepted, hopen],
      by simpa [ServerLoop.accepted, hopen]⟩, ?_⟩
    simp only [Clean, ServerLoop.accepted, hopen, ↓reduceIte]
    rw [List.set_eq_take_append_cons_drop, if_pos hin,
      List.drop_left' (by rw [List.length_take]; omega)]
    exact List.forall_mem_cons.mpr ⟨⟨hneg, hslot.2⟩, hrest⟩

theorem Tidy.clearSlot (h : s.Tidy) (hn : s.i < s.nfds) :
    Sized s.clearSlot.connections s.clearSlot.nfds ∧ s.clearSlot.Clean := by
  refine ⟨⟨by simp [ServerLoop.clearSlot, h.sized.length], h.sized.pos, h.sized.le⟩, ?_⟩
  have hdrop : s.clearSlot.connections.drop s.nfds = s.connections.drop s.nfds :=
    List.drop_set_of_lt hn
  rw [Clean, show s.clearSlot.nfds = s.nfds from rfl, hdrop]
  exact h.clean

theorem spares_room (hs : Sized s.connections s.nfds) (ha : s.spares a = true)
    (hr : s.removes a = true) : s.nfds < NFDESC := by
  have hle := hs.le
  simp only [spares, hr, Bool.true_and, Bool.not_eq_true', decide_eq_false_iff_not] at ha
  omega

theorem tidy_serve (h : s.Tidy) (hi : 1 ≤ s.i) (hn : s.i < s.nfds)
    (hroom : (∃ closed, outcome = .unreadable closed) ∨ outcome = .bad → s.nfds < NFDESC)
    (beyond : PollFd) : (s.served outcome beyond).Tidy := by
  cases outcome with
  | unreadable closed =>
    obtain ⟨hsized, hclean⟩ := h.shift hi hn (hroom (.inl ⟨closed, rfl⟩)) beyond
    cases closed with
    | false => exact ⟨hsized, hclean, fun _ => hi, by simp [served]⟩
    | true => exact ⟨hsized, hclean, fun _ => hi, by simp [served]⟩
  | bad =>
    obtain ⟨hsized, hclean⟩ := h.shift hi hn (hroom (.inr rfl)) beyond
    exact ⟨hsized, hclean, fun _ => hi, by simp [served]⟩
  | rejected =>
    obtain ⟨hsized, hclean⟩ := h.clearSlot hn
    exact ⟨hsized, hclean, fun _ => Nat.le_add_left 1 s.i, by simp [served]⟩
  | answered => exact ⟨h.sized, h.clean, by simp [served], fun _ => ⟨hi, hn⟩⟩
  | unanswered => exact ⟨h.sized, h.clean, by simp [served], fun _ => ⟨hi, hn⟩⟩

theorem Tidy.polled (h : s.Tidy) (revents : Nat → Revents) :
    Sized (s.pollResult revents) s.nfds ∧
      ∀ p ∈ (s.pollResult revents).drop s.nfds, p.fd = -1 ∧ p.revents = .none := by
  refine ⟨⟨by simpa [pollResult] using h.sized.length, h.sized.pos, h.sized.le⟩, ?_⟩
  rw [drop_pollResult]
  exact h.clean

theorem tidy_step (h : s.Tidy) (ha : s.spares a = true) (hs : s.step a = some s') : s'.Tidy := by
  cases step_cases hs with
  | signal => exact ⟨h.sized, h.clean, h.scan, h.hup⟩
  | again | leave | failed | scanned => exact ⟨h.sized, h.clean, by simp, by simp⟩
  | ready =>
    obtain ⟨hsized, hclean⟩ := h.polled _
    exact ⟨hsized, hclean, by simp, by simp⟩
  | quiet =>
    obtain ⟨hsized, hclean⟩ := h.polled _
    exact ⟨hsized, hclean, fun _ => Nat.le_refl 1, by simp⟩
  | accept hat hpollin hroom hfd =>
    obtain ⟨hsized, hclean⟩ := h.accepted hroom hfd
    exact ⟨hsized, hclean, fun _ => Nat.le_refl 1, by simp⟩
  | noAccept => exact ⟨h.sized, h.clean, fun _ => Nat.le_refl 1, by simp⟩
  | serve hat hn hserves =>
    refine tidy_serve h (h.scan hat) hn (fun hout => spares_room h.sized ha ?_) _
    rcases hout with ⟨closed, rfl⟩ | rfl
    · exact hserves
    · exact hserves
  | noServe hat hn => exact ⟨h.sized, h.clean, by simp, fun _ => ⟨h.scan hat, hn⟩⟩
  | hup hat hset =>
    obtain ⟨hi, hn⟩ := h.hup hat
    have hroom := spares_room h.sized ha (by simp [removes, hat, hset])
    obtain ⟨hsized, hclean⟩ := h.shift hi hn hroom _
    exact ⟨hsized, hclean, fun _ => Nat.le_add_left 1 s.i, by simp⟩
  | noHup => exact ⟨h.sized, h.clean, fun _ => Nat.le_add_left 1 s.i, by simp⟩

-- ---------------------------------------------------------------------------
-- The indices
-- ---------------------------------------------------------------------------

theorem shiftTouched_iff (hs : Sized s.connections s.nfds) (hn : s.i < s.nfds) :
    (∀ k ∈ shiftTouched (s.nfds - s.i) s.i, k < NFDESC) ↔ s.nfds ≠ NFDESC := by
  have hle := hs.le
  simp only [mem_shiftTouched]
  constructor
  · intro h heq
    have := h s.nfds ⟨by omega, by omega, by omega⟩
    omega
  · intro hne k hk
    omega

theorem inBounds_iff (h : s.Tidy) (hs : s.step a = some s') : s.InBounds a ↔ s.spares a = true := by
  obtain ⟨hlen, hpos, hle⟩ := h.sized
  have hcap : 0 < NFDESC := by decide
  cases step_cases hs with
  | signal | again | leave => exact iff_of_true (by simp [InBounds, touched]) rfl
  | failed | ready | quiet =>
    refine iff_of_true (fun k hk => ?_) rfl
    have := List.mem_range.mp hk
    omega
  | accept hat hpollin hroom hfd =>
    refine iff_of_true (fun k hk => ?_) rfl
    simp only [touched, hpollin, hroom, and_self, ↓reduceIte] at hk
    split at hk <;> simp at hk <;> omega
  | noAccept hat hnot => exact iff_of_true (by simp [InBounds, touched, hnot, hcap]) rfl
  | @serve outcome beyond hat hn hserves =>
    have hin : (s.slot s.i).revents.pollin = true := by simpa [serves, hat, hn] using hserves
    have hshift := shiftTouched_iff h.sized hn
    have hi : s.i < NFDESC := by omega
    simp only [InBounds, touched, hn, hin, ↓reduceIte, List.forall_mem_cons, hi, true_and, spares]
    cases outcome with
    | unreadable closed => simp [hshift, removes, hserves]
    | bad => simp [hshift, removes, hserves]
    | rejected | answered | unanswered => simp [removes]
  | @noServe outcome beyond hat hn hserves =>
    have hin : (s.slot s.i).revents.pollin = false := by simpa [serves, hat, hn] using hserves
    have hi : s.i < NFDESC := by omega
    refine iff_of_true ?_ ?_
    · simp [InBounds, touched, hn, hin, hi]
    · cases outcome <;> simp [spares, removes, hserves]
  | @scanned outcome beyond hat hn =>
    have hserves : s.serves = false := by simp [serves, Nat.not_lt.mpr hn]
    refine iff_of_true ?_ ?_
    · simp [InBounds, touched, Nat.not_lt.mpr hn]
    · cases outcome <;> simp [spares, removes, hserves]
  | hup hat hset =>
    obtain ⟨-, hn⟩ := h.hup hat
    have hshift := shiftTouched_iff h.sized hn
    have hi : s.i < NFDESC := by omega
    simp [InBounds, touched, hset, hi, hshift, spares, removes, hat]
  | noHup hat hset =>
    obtain ⟨-, hn⟩ := h.hup hat
    have hi : s.i < NFDESC := by omega
    refine iff_of_true ?_ ?_
    · simp [InBounds, touched, hset, hi]
    · simp [spares, removes, hset]

theorem start_tidy (listening_socket : Int) : (ServerLoop.start listening_socket).Tidy := by
  refine ⟨⟨rfl, Nat.le_refl 1, (by decide : 1 ≤ NFDESC)⟩, fun p hp => ?_, by simp [start],
    by simp [start]⟩
  obtain rfl := List.eq_of_mem_replicate hp
  exact ⟨rfl, rfl⟩

end ServerLoop

/-- A run stays inside the array, with the slots that are not in use clean in
every state, exactly if no connection is shifted out while all slots are in use. -/
theorem slots_in_bounds_iff {s : ServerLoop} {as : List LoopStep}
    (hr : run ServerLoop.step (.start listening_socket) as = some s) :
    (Throughout ServerLoop.step ServerLoop.Clean (.start listening_socket) as ∧
      Along ServerLoop.step ServerLoop.InBounds (.start listening_socket) as) ↔
      Along ServerLoop.step (fun s a => s.spares a = true) (.start listening_socket) as := by
  have hstep : ∀ (s : ServerLoop) (a : LoopStep) (s' : ServerLoop), s.Tidy → s.spares a = true →
      s.step a = some s' → s'.Tidy := fun s a s' h ha hs => ServerLoop.tidy_step h ha hs
  have hiff := along_congr hstep (fun s a s' h hs => ServerLoop.inBounds_iff h hs)
    (ServerLoop.start_tidy listening_socket) hr
  rw [hiff]
  refine ⟨fun h => h.2, fun h => ⟨?_, h⟩⟩
  exact throughout_of_keeps hstep (fun s h => h.clean) (ServerLoop.start_tidy _) h

theorem slots_in_bounds_iff_one :
    Throughout ServerLoop.step ServerLoop.Clean (.start 3) (oneClient .bad []) ∧
      Along ServerLoop.step ServerLoop.InBounds (.start 3) (oneClient .bad []) :=
  (slots_in_bounds_iff rfl).mpr (by decide)

def quietScan (n : Nat) : List LoopStep :=
  (List.replicate n [LoopStep.serve .answered anyFd, .hup anyFd]).flatten ++
    [.serve .answered anyFd]

/-- Nineteen clients connect, one a round; in the next round the first has sent
something. -/
def fillServer : List LoopStep :=
  .test :: (List.range 19).flatMap (fun k : Nat =>
    .poll (some (pollinAt 0)) :: .accept (k + 5) :: quietScan (k + 1)) ++
    [.poll (some (pollinAt 1)), .accept (-1)]

def strayFd : PollFd := ⟨7, true, ⟨true, false⟩⟩

/-- What it has sent is bad: the slot behind the array is read, and copied into a
slot that is then not in use. -/
theorem full_server_overreads :
    ∃ s s', run ServerLoop.step (.start 3) fillServer = some s ∧
      s.step (.serve .bad strayFd) = some s' ∧ NFDESC ∈ s.touched (.serve .bad strayFd) ∧
      ¬ s'.Clean := by
  have hrun : (run ServerLoop.step (.start 3) fillServer).any (fun s =>
      (s.step (.serve .bad strayFd)).any fun s' =>
        decide (NFDESC ∈ s.touched (.serve .bad strayFd) ∧ ¬ s'.Clean)) = true := by
    decide +kernel
  obtain ⟨s, hs, hrun⟩ := (Option.any_eq_true _ _).mp hrun
  obtain ⟨s', hs', hrun⟩ := (Option.any_eq_true _ _).mp hrun
  obtain ⟨htouched, hclean⟩ := of_decide_eq_true hrun
  exact ⟨s, s', hs, hs', htouched, hclean⟩

end HashMapStorage

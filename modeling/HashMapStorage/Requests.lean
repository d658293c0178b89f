import HashMapStorage.ServerLoopLaws

/-!
# Who releases a request (`network_main_loop`, `network_send`)

The connection loop again, with what the main thread does to the messages it
receives: they are numbered as they come, and every read and every release is
recorded. `network_send` releases the message where it fails, and so does the
loop behind it, which does not look at the result.
-/

namespace HashMapStorage

open Machine

inductive Use
  | read
  | free
  deriving DecidableEq

/-- How a slot with POLLIN is served: `network_send` gets no buffer and leaves the
socket open, or does not get the length written, or not the message. -/
inductive Service
  | unreadable (closed : Bool)
  | bad
  | rejected
  | noMemory
  | shortLength
  | shortBody
  | sent
  deriving DecidableEq

namespace Service

def outcome : Service → Outcome
  | .unreadable closed => .unreadable closed
  | .bad => .bad
  | .rejected => .rejected
  | .noMemory => .answered
  | .shortLength => .unanswered
  | .shortBody => .unanswered
  | .sent => .answered

def obtains : Service → Bool
  | .unreadable _ => false
  | _ => true

def fails : Service → Bool
  | .noMemory | .shortLength | .shortBody => true
  | _ => false

end Service

-- ---------------------------------------------------------------------------
-- What is done to a message
-- ---------------------------------------------------------------------------

def printMessageUses : List Use := [.read]

def invokeUses : List Use := [.read]

/-- The members are read, then they and the message itself are released. -/
def freeMessageUses : List Use := [.read, .free]

def networkSendUses (r : Service) : List Use :=
  if r.fails then .read :: freeMessageUses else [.read]

def serveUses : Service → List Use
  -- `free_message(NULL)`
  | .unreadable _ => []
  | .bad => .read :: freeMessageUses
  | .rejected => .read :: (printMessageUses ++ invokeUses ++ freeMessageUses)
  | r =>
    .read :: (printMessageUses ++ invokeUses ++ printMessageUses ++ networkSendUses r ++
      freeMessageUses)

structure RequestLoop where
  loop : ServerLoop
  obtained : Nat
  uses : List (Nat × Use)

def RequestLoop.start (listening_socket : Int) : RequestLoop := ⟨.start listening_socket, 0, []⟩

inductive RequestStep
  | loop (a : LoopStep)
  | serve (r : Service) (beyond : PollFd)

namespace RequestLoop

def step (s : RequestLoop) : RequestStep → Option RequestLoop
  | .loop (.serve _ _) => none
  | .loop a => (s.loop.step a).map fun loop => { s with loop }
  | .serve r beyond =>
    (s.loop.step (.serve r.outcome beyond)).map fun loop =>
      if s.loop.serves && r.obtains then
        { loop
          obtained := s.obtained + 1
          uses := s.uses ++ (serveUses r).map (s.obtained, ·) }
      else { s with loop }

def usesOf (s : RequestLoop) (m : Nat) : List Use :=
  (s.uses.filter fun use => use.1 = m).map Prod.snd

end RequestLoop

def ReleasedOnce (uses : List Use) : Prop := ∃ before, uses = before ++ [.free] ∧ .free ∉ before

/-- Each message received has been released once and not been read after that. -/
def RequestLoop.Tidy (s : RequestLoop) : Prop := ∀ m < s.obtained, ReleasedOnce (s.usesOf m)

def RequestLoop.sends (s : RequestLoop) : RequestStep → Bool
  | .serve r _ => !(s.loop.serves && r.fails)
  | .loop _ => true

-- ---------------------------------------------------------------------------
-- The uses of one message
-- ---------------------------------------------------------------------------

theorem releasedOnce_iff {uses : List Use} :
    ReleasedOnce uses ↔ uses.getLast? = some .free ∧ .free ∉ uses.dropLast := by
  constructor
  · rintro ⟨before, rfl, hb⟩
    simpa using hb
  · rintro ⟨hlast, hb⟩
    exact ⟨uses.dropLast, (List.dropLast_append_getLast? _ hlast).symm, hb⟩

instance (uses : List Use) : Decidable (ReleasedOnce uses) :=
  decidable_of_iff _ releasedOnce_iff.symm

theorem serveUses_once {r : Service} (hr : r.obtains = true) :
    ReleasedOnce (serveUses r) ↔ r.fails = false := by
  cases r with
  | unreadable => nomatch hr
  | _ => decide

namespace RequestLoop

variable {s s' : RequestLoop}

def Numbered (s : RequestLoop) : Prop := ∀ use ∈ s.uses, use.1 < s.obtained

theorem step_uses (hs : s.step a = some s') :
    (∃ r beyond, a = .serve r beyond ∧ s.loop.serves = true ∧ r.obtains = true ∧
      s'.obtained = s.obtained + 1 ∧
      s'.uses = s.uses ++ (serveUses r).map (s.obtained, ·)) ∨
    (s.sends a = true ∧ s'.obtained = s.obtained ∧ s'.uses = s.uses) := by
  cases a with
  | loop a =>
    refine .inr ⟨rfl, ?_⟩
    cases a with
    | serve => nomatch hs
    | _ =>
      simp only [step, Option.map_eq_some_iff] at hs
      obtain ⟨loop, -, rfl⟩ := hs
      exact ⟨rfl, rfl⟩
  | serve r beyond =>
    simp only [step, Option.map_eq_some_iff] at hs
    obtain ⟨loop, -, rfl⟩ := hs
    by_cases hcall : (s.loop.serves && r.obtains) = true
    · rw [if_pos hcall]
      rw [Bool.and_eq_true] at hcall
      exact .inl ⟨r, beyond, rfl, hcall.1, hcall.2, rfl, rfl⟩
    · rw [if_neg hcall]
      refine .inr ⟨?_, rfl, rfl⟩
      rw [sends, Bool.not_eq_true']
      cases hserves : s.loop.serves with
      | false => rfl
      | true =>
        -- nothing is sent where nothing has been received
        cases r with
        | unreadable => rfl
        | _ => exact absurd (by rw [hserves]; rfl) hcall

theorem usesOf_served {served : List Use} (hn : s.Numbered)
    (hu : s'.uses = s.uses ++ served.map (s.obtained, ·)) :
    s'.usesOf s.obtained = served := by
  have hbefore : (s.uses.filter fun use => use.1 = s.obtained) = [] := by
    refine List.filter_eq_nil_iff.mpr fun use huse => ?_
    have hlt := hn use huse
    simp only [decide_eq_true_eq]
    omega
  rw [usesOf, hu, List.filter_append, hbefore, List.nil_append]
  simp [List.filter_map, Function.comp_def]

theorem usesOf_earlier {served : List Use}
    (hu : s'.uses = s.uses ++ served.map (s.obtained, ·)) (hm : m < s.obtained) :
    s'.usesOf m = s.usesOf m := by
  have hother : ((served.map (s.obtained, ·)).filter fun use => use.1 = m) = [] := by
    refine List.filter_eq_nil_iff.mpr fun use huse => ?_
    obtain ⟨_, -, rfl⟩ := List.mem_map.mp huse
    simp only [decide_eq_true_eq]
    omega
  rw [usesOf, usesOf, hu, List.filter_append, hother, List.append_nil]

theorem tidy_step (hn : s.Numbered) (ht : s.Tidy) (hs : s.step a = some s') :
    s'.Numbered ∧ (s'.Tidy ↔ s.sends a = true) := by
  rcases step_uses hs with ⟨r, beyond, rfl, hserves, hr, hobtained, hu⟩ | ⟨hsends, hobtained, hu⟩
  · constructor
    · intro use huse
      rw [hu, List.mem_append] at huse
      rw [hobtained]
      rcases huse with huse | huse
      · exact Nat.lt_succ_of_lt (hn use huse)
      · obtain ⟨_, -, rfl⟩ := List.mem_map.mp huse
        exact Nat.lt_succ_self s.obtained
    · have hsends : s.sends (.serve r beyond) = true ↔ r.fails = false := by
        rw [sends, hserves, Bool.true_and, Bool.not_eq_true']
      have honce := serveUses_once hr
      have hlast : s'.usesOf s.obtained = serveUses r := usesOf_served hn hu
      rw [hsends, ← honce]
      constructor
      · intro ht'
        rw [← hlast]
        exact ht' s.obtained (hobtained ▸ Nat.lt_succ_self s.obtained)
      · intro hserve m hm
        rw [hobtained, Nat.lt_succ_iff_lt_or_eq] at hm
        rcases hm with hm | rfl
        · rw [usesOf_earlier hu hm]
          exact ht m hm
        · rwa [hlast]
  · have hsame : ∀ m, s'.usesOf m = s.usesOf m := fun m => by rw [usesOf, usesOf, hu]
    constructor
    · intro use huse
      rw [hobtained]
      exact hn use (hu ▸ huse)
    · refine iff_of_true (fun m hm => ?_) hsends
      rw [hsame]
      exact ht m (hobtained ▸ hm)

end RequestLoop

/-- In a run every message is released exactly once, and not read after that, as
long as `network_send` does not fail; where it does, the message is released
twice. -/
theorem released_exactly_once {s : RequestLoop}
    (hr : run RequestLoop.step (.start listening_socket) as = some s) :
    Throughout RequestLoop.step RequestLoop.Tidy (.start listening_socket) as ↔
      Along RequestLoop.step (fun s a => s.sends a = true) (.start listening_socket) as :=
  throughout_iff_along (fun _ _ _ hn ht hs => RequestLoop.tidy_step hn ht hs)
    (fun _ h => nomatch h) (fun _ h => nomatch h) hr

def oneRequest (r : Service) : List RequestStep :=
  [.loop .test, .loop (.poll (some (pollinAt 0))), .loop (.accept 5),
    .serve (.unreadable false) anyFd, .loop (.hup anyFd), .serve (.unreadable false) anyFd,
    .loop (.poll (some (pollinAt 1))), .loop (.accept (-1)), .serve r anyFd]

theorem released_exactly_once_sent :
    ∃ s, run RequestLoop.step (.start 3) (oneRequest .sent) = some s ∧ s.obtained = 1 ∧
      Throughout RequestLoop.step RequestLoop.Tidy (.start 3) (oneRequest .sent) := by
  have ha : Along RequestLoop.step (fun s a => s.sends a = true) (.start 3) (oneRequest .sent) := by
    decide
  exact ⟨_, rfl, rfl, (released_exactly_once rfl).mpr ha⟩

def ReleasesTwice (r : Service) : Prop :=
  ∃ s, run RequestLoop.step (.start 3) (oneRequest r) = some s ∧
    (s.usesOf 0).count .free = 2 ∧ ¬ s.Tidy

/-- No buffer, no length written, or no message. -/
theorem released_twice :
    ReleasesTwice .noMemory ∧ ReleasesTwice .shortLength ∧ ReleasesTwice .shortBody := by
  refine ⟨?_, ?_, ?_⟩
  all_goals exact ⟨_, rfl, rfl, fun h => absurd (h 0 (by decide)) (by decide)⟩

end HashMapStorage

import HashMapStorage.MessageBlocks
import HashMapStorage.ServiceRuns

/-!
# What the server leaves allocated

Between two requests the strings and arrays allocated are those of the start and
the ones that have been lost, and each step says how many it loses. A request
that is answered loses the keys it carried; a GET loses the data it carried,
and a GETKEYS its array, and each key that it lists once.
-/

namespace HashMapStorage

open Machine

def Fields.accepted (f : Fields) : Bool :=
  f.opcode ∈ [opSize, opDel, opGet, opPut, opGetkeys, opVerify] ∧
    ¬ outOfRange f.opcode f.cType

namespace Server

variable {s s' : Server} {t : Skel} {messages : Heap MessageT} {mem : Mem} {net' : NetPc}
  {received' : Fields} {writes' : List Write} {strings arrays : Multiset Nat}
  {d : Deferred Fields}

/-- The strings and the arrays that a step leaves to nobody. -/
def loses (s : Server) : ServerStep → Nat × Nat
  | .skel (.invoke _ _ _) =>
    if s.received.accepted then
      (s.received.keys.length +
          if s.received.opcode = opGet ∧ s.received.data.isSome then 1 else 0,
        if s.received.opcode = opGetkeys ∧ s.received.keys ≠ [] then 1 else 0)
    else 0
  | .skel (.copyKeys _) =>
    match s.main with
    | .copyKeys _ chaves => (keyCount chaves, 0)
    | _ => 0
  | _ => 0

structure Carries (s : Server) (message : MessageT) (ps : List Ptr) : Prop where
  opcode : message.opcode = s.received.opcode
  cType : message.cType = s.received.cType
  data : message.data.isSome = s.received.data.isSome
  keys : (blocksOf ps).card = s.received.keys.length
  array : message.keys.isSome ↔ s.received.keys ≠ []

/-- All that is allocated: the blocks of the message in service, and the others. -/
def Stands (s : Server) (strings arrays : Multiset Nat) : Prop :=
  match s.net with
  | .poll | .closed => Blocks s.mem.strings strings ∧ Blocks s.mem.arrays arrays
  | .received p => ∃ message ps, s.messages.cell p = some message ∧
      message.Beside s.mem ps strings arrays ∧ s.Carries message ps
  | .invoked p =>
    match s.main with
    | .lock q _ | .enqueue q _ | .signal q | .unlock q =>
      q = p ∧ ∃ message, s.messages.cell p = some message ∧ message.Bare s.mem strings arrays
    | .getKeys q | .copyKeys q _ =>
      q = p ∧ ∃ message, s.messages.cell p = some message ∧
        { message with keys := none }.Bare s.mem strings arrays ∧ message.nKeys ≠ 0
    | .returned _ result => ∃ message, s.messages.cell p = some message ∧
        if result = 0 then message.Bare s.mem strings arrays
        else ∃ ps, message.Beside s.mem ps strings arrays
    | _ => False
  | .replied p => ∀ message, s.messages.cell p = some message →
      ∃ ps, message.Beside s.mem ps strings arrays

theorem Stands.frame (h : s.Stands strings arrays) (hnet : s'.net = s.net)
    (hmain : ∀ p, s.net = .invoked p → s'.main = s.main) (hmessages : s'.messages = s.messages)
    (hmem : s'.mem = s.mem) (hreceived : s'.received = s.received) :
    s'.Stands strings arrays := by
  have hcarries : ∀ message ps, s.Carries message ps → s'.Carries message ps := by
    rintro message ps ⟨hop, hct, hdata, hkeys, harray⟩
    exact ⟨by rw [hop, hreceived], by rw [hct, hreceived], by rw [hdata, hreceived],
      by rw [hkeys, hreceived], by rw [harray, hreceived]⟩
  unfold Stands at *
  rw [hnet, hmessages, hmem]
  cases hn : s.net with
  | received p =>
    rw [hn] at h
    obtain ⟨message, ps, hc, hm, hcarried⟩ := h
    exact ⟨message, ps, hc, hm, hcarries message ps hcarried⟩
  | invoked p =>
    rw [hn] at h
    dsimp only at h ⊢
    rw [hmain p hn]
    exact h
  | poll | closed | replied p =>
    rw [hn] at h
    exact h

def Leaves (s : Server) (a : ServerStep) (s' : Server) (strings arrays : Multiset Nat) : Prop :=
  ∃ lost lostArrays : Multiset Nat, (lost.card, lostArrays.card) = s.loses a ∧
    s'.Stands (lost + strings) (lostArrays + arrays)

theorem Stands.leaves (h : s'.Stands strings arrays) (ha : s.loses a = 0) :
    s.Leaves a s' strings arrays :=
  ⟨0, 0, ha.symm, by simpa using h⟩

-- ---------------------------------------------------------------------------
-- Steps of the network loop
-- ---------------------------------------------------------------------------

theorem reply_accepted (hs : s.step (.reply string sent) = some s') (hnet : s'.net = .replied p)
    (hmain : s.main = .returned msg result) : result = 0 := by
  by_contra hne
  obtain ⟨⟨b, net, received, writes⟩, hplan, hs⟩ := Option.bind_eq_some_iff.mp hs
  obtain ⟨t, -, hs⟩ := Option.bind_eq_some_iff.mp hs
  cases hs
  dsimp only at hnet
  simp only [plan, hmain] at hplan
  split at hplan
  · rename_i hm
    cases hm
    rw [if_pos hne] at hplan
    obtain ⟨⟨messages, mem⟩, -, hplan⟩ := Option.bind_eq_some_iff.mp hplan
    cases hplan
    cases hnet
  · cases hplan

theorem pack_toMessageT (h : s.pack p string = .ok mem) (hc : s.messages.cell p = some message) :
    ∃ messageT, toMessageT s.mem message string = .ok (messageT, mem) := by
  obtain ⟨message', hl, h⟩ := seq_ok h
  rw [Heap.load_some hc] at hl
  cases hl
  obtain ⟨⟨messageT, mem'⟩, hto, h⟩ := seq_ok h
  obtain ⟨f, -, h⟩ := seq_ok h
  cases h
  exact ⟨messageT, hto⟩

theorem Stands.returned (h : s.Stands strings arrays) (hnet : s.net = .invoked p)
    (hmain : s.main = .returned msg result) : ∃ message, s.messages.cell p = some message ∧
      if result = 0 then message.Bare s.mem strings arrays
      else ∃ ps, message.Beside s.mem ps strings arrays := by
  unfold Stands at h
  rw [hnet, hmain] at h
  exact h

theorem Stands.outside (h : s.Stands strings arrays) (hs : s.step a = some s')
    (hp : Plan s a b net' received' writes') (ha : ∀ b, a ≠ .skel b)
    (ht : s.toSkel.step b = some t) (hs' : s' = marked ⟨t, net', received', writes'⟩) :
    s.Leaves a s' strings arrays := by
  cases hp with
  | skel b => exact absurd rfl (ha b)
  | receive f struct m hnet =>
    refine Stands.leaves ?_ rfl
    cases Skel.step_change ht
    subst hs'
    unfold Stands at h
    rw [hnet] at h
    obtain ⟨ps, hbeside, hcard, hdata, hkeys⟩ := placeMessage_beside h.1 h.2 f.noEmpty m
    obtain ⟨-, -, -, -, hop, -⟩ := placeMessage_spec s.mem f.noEmpty m
    obtain ⟨-, -, hct⟩ := placeMessage_holds s.mem f.noEmpty m
    exact ⟨_, ps, Heap.set_cell .., hbeside, hop, hct, hdata, hcard, hkeys⟩
  | drop messages mem hnet hrel =>
    refine Stands.leaves ?_ rfl
    cases Skel.step_change ht
    subst hs'
    unfold Stands at h
    rw [hnet] at h
    obtain ⟨message, ps, hc, hbeside, -⟩ := h
    exact hbeside.release hc hrel
  | reject messages mem hnet hmain hresult hrel =>
    refine Stands.leaves ?_ rfl
    cases Skel.step_change ht
    subst hs'
    obtain ⟨message, hc, hbeside⟩ := h.returned hnet hmain
    rw [if_neg hresult] at hbeside
    obtain ⟨ps, hbeside⟩ := hbeside
    exact hbeside.release hc hrel
  | reply mem hnet hmain hpack =>
    refine Stands.leaves ?_ rfl
    have haccepted := reply_accepted hs (by rw [hs']; rfl) hmain
    cases Skel.step_change ht
    subst hs'
    obtain ⟨message, hc, hbare⟩ := h.returned hnet hmain
    rw [if_pos haccepted] at hbare
    obtain ⟨messageT, hto⟩ := pack_toMessageT hpack hc
    intro message' hc'
    rw [show s.messages.cell _ = some message' from hc'] at hc
    cases hc
    exact hbare.toMessageT hto
  | replyFails mem messages mem' hnet hmain hpack hrel =>
    refine Stands.leaves ?_ rfl
    cases Skel.step_change ht
    subst hs'
    intro message hc
    obtain ⟨-, -, rfl, -⟩ := releaseMessage_ok hrel
    have hnone := (Heap.set_cell s.messages _ none).symm.trans hc
    cases hnone
  | release messages mem hnet hrel =>
    refine Stands.leaves ?_ rfl
    cases Skel.step_change ht
    subst hs'
    obtain ⟨message, hc, -⟩ := releaseMessage_ok hrel
    unfold Stands at h
    rw [hnet] at h
    obtain ⟨ps, hbeside⟩ := h message hc
    exact hbeside.release hc hrel

-- ---------------------------------------------------------------------------
-- Steps of the skeleton
-- ---------------------------------------------------------------------------

theorem Carries.accepted (hc : s.Carries message ps) :
    s.received.accepted = true ↔ message.admitted ∧
      message.opcode ∈ [opSize, opDel, opGet, opPut, opGetkeys, opVerify] := by
  rw [MessageT.admitted, Fields.accepted, decide_eq_true_eq, hc.opcode, hc.cType]
  exact and_comm

theorem Carries.loses (hc : s.Carries message ps) (hok : message.admitted)
    (hop : message.opcode ∈ [opSize, opDel, opGet, opPut, opGetkeys, opVerify]) (p : Ptr)
    (found : DataMem) (string : Malloc (List UInt8)) :
    s.loses (.skel (.invoke p found string)) =
      ((blocksOf ps).card + (if message.opcode = opGet then message.data.block else 0).card,
        (if message.opcode = opGetkeys then message.keys.block else 0).card) := by
  have hdata : (if message.opcode = opGet then message.data.block else 0).card =
      if s.received.opcode = opGet ∧ s.received.data.isSome then 1 else 0 := by
    rw [← hc.opcode, ← hc.data]
    cases message.data <;> by_cases h : message.opcode = opGet <;> simp [h]
  have hkeys : (if message.opcode = opGetkeys then message.keys.block else 0).card =
      if s.received.opcode = opGetkeys ∧ s.received.keys ≠ [] then 1 else 0 := by
    rw [← hc.opcode]
    simp only [← hc.array]
    cases message.keys <;> by_cases h : message.opcode = opGetkeys <;> simp [h]
  rw [Server.loses, if_pos (hc.accepted.mpr ⟨hok, hop⟩), hdata, hkeys, hc.keys]

theorem Stands.invoke (h : s.Stands strings arrays) (htable : s.table.isSome)
    (hsized : ∀ table, s.table = some table → IsInt (tableSize table))
    (ha : s.allows (.invoke msg data string) = true)
    (ht : s.toSkel.step (.invoke msg data string) = some t) :
    s.Leaves (.skel (.invoke msg data string))
      (marked ⟨t, s.netAfter (.invoke msg data string), s.received, writes'⟩) strings arrays := by
  obtain ⟨p, hnet, rfl⟩ := allows_invoke ha
  unfold Stands at h
  rw [hnet] at h
  obtain ⟨message, ps, hc, hbeside, hcarries⟩ := h
  obtain ⟨table, hsome, hinvoked⟩ := step_invoked ht htable hc
  have hbare := hbeside.bare
  have hdropped := hbare.dropKeys
  have hloses := fun hok hop => hcarries.loses hok hop (some p) data string
  cases hinvoked with
  | rejected hnot =>
    refine Stands.leaves ⟨message, hc, ?_⟩ ?_
    · rw [if_neg (by decide)]
      exact ⟨ps, hbeside⟩
    · exact if_neg fun haccepted => hnot (hcarries.accepted.mp haccepted).1
  | size hok hop =>
    refine ⟨blocksOf ps, 0, ?_, ?_⟩
    · rw [hloses hok (by simp [hop]), hop]
      simp [opSize, opGet, opGetkeys]
    · rw [zero_add]
      exact ⟨_, Heap.set_cell .., hbare.strings, hbare.arrays, hbare.count⟩
  | write put hok hop =>
    refine ⟨blocksOf ps, 0, ?_, ?_⟩
    · rw [hloses hok (by cases put <;> simp [hop]), hop]
      cases put <;> simp [opPut, opDel, opGet, opGetkeys]
    · rw [zero_add]
      exact ⟨rfl, message, hc, hbare⟩
  | get msg' mem' hok hop hget =>
    refine ⟨message.data.block + blocksOf ps, 0, ?_, ?_⟩
    · rw [hloses hok (by simp [hop]), hop, if_pos rfl, if_neg (by decide), Multiset.card_add,
        add_comm, Multiset.card_zero]
    · rw [zero_add, add_assoc]
      exact ⟨_, Heap.set_cell .., hbare.invokeGet hget⟩
  | noKeys hok hop hzero =>
    refine ⟨blocksOf ps, message.keys.block, ?_, ?_⟩
    · rw [hloses hok (by simp [hop]), hop, if_neg (by decide), if_pos rfl, Multiset.card_zero,
        add_zero]
    · exact ⟨_, Heap.set_cell .., hdropped.strings, hdropped.arrays, fun h => absurd rfl h⟩
  | keys hok hop hsize =>
    refine ⟨blocksOf ps, message.keys.block, ?_, ?_⟩
    · rw [hloses hok (by simp [hop]), hop, if_neg (by decide), if_pos rfl, Multiset.card_zero,
        add_zero]
    · have hint := hsized table hsome
      refine ⟨rfl, _, Heap.set_cell ..,
        ⟨hdropped.strings, hdropped.arrays, fun h => absurd rfl h⟩, ?_⟩
      simp only [IsInt, intMin, intMax] at hint
      dsimp only
      omega
  | verify verificado hok hop hverify =>
    refine ⟨blocksOf ps, 0, ?_, ?_⟩
    · rw [hloses hok (by simp [hop]), hop]
      simp [opVerify, opGet, opGetkeys]
    · rw [zero_add]
      exact ⟨_, Heap.set_cell .., hbare.strings, hbare.arrays, hbare.count⟩
  | unknown hok hop =>
    refine Stands.leaves ⟨_, Heap.set_cell .., ?_⟩ ?_
    · rw [if_neg (by decide)]
      exact ⟨ps, hbeside.strings, hbeside.arrays, hbeside.keys⟩
    · exact if_neg fun haccepted => hop (hcarries.accepted.mp haccepted).2

theorem Stands.copyKeys (h : s.Stands strings arrays) (hnet : s.net = .invoked p)
    (ht : s.toSkel.step (.copyKeys m) = some t) :
    s.Leaves (.skel (.copyKeys m)) (marked ⟨t, s.net, s.received, writes'⟩) strings arrays := by
  simp only [Skel.step, Skel.mainStep, Skel.workerStep, Option.or_none] at ht
  split at ht
  · rename_i q chaves table hmain htable
    obtain ⟨message, hc, ht⟩ := Option.bind_eq_some_iff.mp ht
    obtain ⟨⟨message', mem'⟩, hkeys, ht⟩ := Option.bind_eq_some_iff.mp ht
    cases ht
    unfold Stands at h
    rw [hnet, hmain] at h
    obtain ⟨rfl, message₁, hc₁, hbare, hcount⟩ := h
    rw [hc] at hc₁
    cases hc₁
    obtain ⟨copies, hcard, hbare'⟩ := invokeKeys_bare hbare hcount (toOption_some.mp hkeys)
    refine ⟨copies, 0, ?_, ?_⟩
    · rw [loses, hmain, hcard]
      rfl
    · rw [zero_add]
      unfold Stands
      simp only [marked, hnet]
      exact ⟨_, Heap.set_cell .., hbare'⟩
  · cases ht

theorem Stands.skel (h : s.Stands strings arrays) (hr : s.Reflects d) (ha : s.allows a = true)
    (ht : s.toSkel.step a = some t) :
    s.Leaves (.skel a) (marked ⟨t, s.netAfter a, s.received, writes'⟩) strings arrays := by
  have hserving := hr.serving
  cases Skel.step_change ht with
  | outside => cases ha
  | send => exact (hserving.closable.unsent ht).elim
  | join _ hdone => exact absurd hdone hserving.running.worker
  | deleteQueue _ _ hpc => exact absurd hpc hserving.running.queue
  | invoke _ _ _ _ _ hidle =>
    obtain ⟨table, htable, hkeeps⟩ := hr.reads (by rw [hidle]; rfl)
    refine h.invoke hserving.closable.table (fun table' htable' => ?_) ha ht
    rw [htable] at htable'
    cases htable'
    exact hkeeps.maps.fits
  | copyKeys _ _ hpc =>
    obtain ⟨p, hnet⟩ := allows_inside ha rfl
    exact h.copyKeys hnet ht
  | lock hpc | signal hpc | getKeys _ hpc =>
    obtain ⟨p, hnet⟩ := allows_inside ha rfl
    refine Stands.leaves ?_ rfl
    unfold Stands at *
    simp only [hnet, hpc, marked, netAfter] at h ⊢
    exact h
  | unlock hpc =>
    obtain ⟨p, hnet⟩ := allows_inside ha rfl
    refine Stands.leaves ?_ rfl
    unfold Stands at *
    simp only [hnet, hpc, marked, netAfter] at h ⊢
    exact h.2
  | enqueue q put m msg tasks queue hpc hmsg hadd =>
    obtain ⟨p, hnet⟩ := allows_inside ha rfl
    refine Stands.leaves ?_ rfl
    unfold Stands at *
    simp only [hnet, hpc, marked, netAfter] at h ⊢
    obtain ⟨rfl, message, hc, hbare⟩ := h
    rw [hc] at hmsg
    cases hmsg
    exact ⟨rfl, _, Heap.set_cell .., hbare.strings, hbare.arrays, hbare.count⟩
  | destroy hpc =>
    have hnet : s.net = .poll := by simpa [allows] using ha
    refine Stands.leaves ?_ rfl
    unfold Stands at *
    rw [hnet] at h
    exact h
  | clearFlag hpc | stopSignal hpc =>
    have hnet : s.net = .closed := hserving.closable.closing (by rw [hpc]; rfl)
    refine Stands.leaves (h.frame rfl (fun p hinvoked => ?_) rfl rfl rfl) rfl
    rw [hnet] at hinvoked
    cases hinvoked
  | _ => exact Stands.leaves (h.frame rfl (fun _ _ => rfl) rfl rfl rfl) rfl

theorem Stands.step (h : s.Stands strings arrays) (hr : s.Reflects d) (hs : s.step a = some s') :
    s.Leaves a s' strings arrays := by
  obtain ⟨b, t, net', received', writes', hplan, ht, hs'⟩ := step_plan hs
  by_cases hskel : ∃ b, a = .skel b
  swap
  · exact h.outside hs hplan (fun b hb => hskel ⟨b, hb⟩) ht hs'
  obtain ⟨b', rfl⟩ := hskel
  cases hplan with
  | skel b hallows =>
    rw [hs']
    exact h.skel hr hallows ht

structure Footing (strings arrays : Multiset Nat) (lost : Nat × Nat) (s : Server) : Prop where
  reflects : ∃ d, s.Reflects d
  stands : ∃ left leftArrays : Multiset Nat, (left.card, leftArrays.card) = lost ∧
    s.Stands (left + strings) (leftArrays + arrays)

theorem Footing.step (h : Footing strings arrays n s) (ha : s.lasting a)
    (hs : s.step a = some s') : Footing strings arrays (n + s.loses a) s' := by
  obtain ⟨⟨d, hr⟩, left, leftArrays, hn, hstands⟩ := h
  obtain ⟨lost, lostArrays, hloses, hstands'⟩ := hstands.step hr hs
  obtain ⟨d', -, hr'⟩ := hr.step ha hs
  refine ⟨⟨d', hr'⟩, left + lost, leftArrays + lostArrays, ?_, ?_⟩
  · rw [← hn, ← hloses, Multiset.card_add, Multiset.card_add]
    rfl
  · rwa [add_comm left, add_comm leftArrays, add_assoc, add_assoc]

end Server

end HashMapStorage

import HashMapStorage.ServiceRuns

/-!
# What the server replies

From the call of `invoke` to `network_send` the message in service is written
to by the main thread only. So its reply says what the main thread has found
out in the table and the queue since it received the request, or what it has
queued.
-/

namespace HashMapStorage

open Machine

/-- The message answers `f` by what has happened since that was received. -/
inductive MessageT.Answers (mem : Mem) (f : Fields) (es : List Event) (msg : MessageT) : Prop
  | write : f.opcode = opPut ∨ f.opcode = opDel → msg.opcode = f.opcode + 1 →
      Deferred.writesIn es = [f] → Answers mem f es msg
  | size : f.opcode = opSize → Deferred.writesIn es = [] →
      .read .size (.number msg.dataSize) ∈ es → Answers mem f es msg
  | get (value) : f.opcode = opGet → Deferred.writesIn es = [] → msg.opcode = opGet + 1 →
      .read (.get f.key) (.value value) ∈ es → msg.HoldsValue mem.strings value →
      Answers mem f es msg
  | noKeys : f.opcode = opGetkeys → Deferred.writesIn es = [] → msg.nKeys = 0 →
      .read .size (.number msg.nKeys) ∈ es → Answers mem f es msg
  | keys (keys) : f.opcode = opGetkeys → Deferred.writesIn es = [] →
      .read .size (.number msg.nKeys) ∈ es → .read .keys (.keys keys) ∈ es →
      (msg.nKeys = keys.length → msg.keyStrs mem = .ok keys) → Answers mem f es msg
  | verify : f.opcode = opVerify → Deferred.writesIn es = [] →
      .ask f.dataSize (decide (msg.dataSize = 0)) ∈ es → Answers mem f es msg

theorem MessageT.Answers.later {msg : MessageT} (h : msg.Answers mem f es) (hsub : es ⊆ es')
    (hw : Deferred.writesIn es' = Deferred.writesIn es) : msg.Answers mem f es' := by
  cases h with
  | write hf hop hes => exact .write hf hop (hw.trans hes)
  | size hf hes hread => exact .size hf (hw.trans hes) (hsub hread)
  | get value hf hes hop hread hv => exact .get value hf (hw.trans hes) hop (hsub hread) hv
  | noKeys hf hes hn hread => exact .noKeys hf (hw.trans hes) hn (hsub hread)
  | keys keys hf hes hsize hread hk =>
    exact .keys keys hf (hw.trans hes) (hsub hsize) (hsub hread) hk
  | verify hf hes hask => exact .verify hf (hw.trans hes) (hsub hask)

def ServerStep.receives : ServerStep → Bool
  | .receive .. => true
  | _ => false

namespace Server

variable {s s' : Server} {t : Skel} {d : Deferred Fields} {es es' : List Event}

/-- How far the call in service has got, given the events since its request was
received. -/
def InCall (s : Server) (es : List Event) : Prop :=
  match s.net with
  | .received _ => Deferred.writesIn es = []
  | .invoked p =>
    match s.main with
    | .lock q _ | .enqueue q _ => q = p ∧ Deferred.writesIn es = []
    | .signal q | .unlock q =>
      q = p ∧ ∃ msg, s.messages.cell p = some msg ∧ msg.Answers s.mem s.received es
    | .getKeys q =>
      q = p ∧ s.received.opcode = opGetkeys ∧ Deferred.writesIn es = [] ∧
        ∃ msg, s.messages.cell p = some msg ∧ .read .size (.number msg.nKeys) ∈ es
    | .copyKeys q chaves =>
      q = p ∧ s.received.opcode = opGetkeys ∧ Deferred.writesIn es = [] ∧
        ∃ msg keys, s.messages.cell p = some msg ∧ .read .size (.number msg.nKeys) ∈ es ∧
          chaves = chavesOf keys ∧ .read .keys (.keys keys) ∈ es
    | .returned _ result =>
      result = 0 → ∃ msg, s.messages.cell p = some msg ∧ msg.Answers s.mem s.received es
    | _ => True
  | _ => True

theorem InCall.frame (h : s.InCall es) (hnet : s'.net = s.net) (hmain : s'.main = s.main)
    (hmessages : s'.messages = s.messages) (hmem : s'.mem = s.mem)
    (hreceived : s'.received = s.received) (hsub : es ⊆ es')
    (hw : Deferred.writesIn es' = Deferred.writesIn es) : s'.InCall es' := by
  unfold InCall at *
  rw [hnet, hmain, hmessages, hmem, hreceived, hw]
  generalize s.net = net at h ⊢
  cases net with
  | invoked p =>
    dsimp only at h ⊢
    generalize s.main = main at h ⊢
    cases main with
    | signal | unlock =>
      obtain ⟨hq, msg, hc, hanswers⟩ := h
      exact ⟨hq, msg, hc, hanswers.later hsub hw⟩
    | getKeys =>
      obtain ⟨hq, hop, hes, msg, hc, hread⟩ := h
      exact ⟨hq, hop, hes, msg, hc, hsub hread⟩
    | copyKeys =>
      obtain ⟨hq, hop, hes, msg, keys, hc, hread, hchaves, hkeys⟩ := h
      exact ⟨hq, hop, hes, msg, keys, hc, hsub hread, hchaves, hsub hkeys⟩
    | returned =>
      intro hz
      obtain ⟨msg, hc, hanswers⟩ := h hz
      exact ⟨msg, hc, hanswers.later hsub hw⟩
    | _ => exact h
  | _ => exact h

theorem answers_admitted {msg : MessageT} (hc : s'.messages.cell p = some msg)
    (hok : ¬ outOfRange s.received.opcode s.received.cType) :
    s.answers s' p =
      if s.received.opcode = opSize then [.read .size (.number msg.dataSize)]
      else if s.received.opcode = opGet then
        [.read (.get s.received.key) (.value (s'.valueOf msg))]
      else if s.received.opcode = opGetkeys then [.read .size (.number msg.nKeys)]
      else if s.received.opcode = opVerify then
        [.ask s.received.dataSize (decide (msg.dataSize = 0))]
      else [] := by
  simp only [answers, hc, if_neg hok]

theorem InCall.invoke (h : s.InCall es) (hr : s.Reflects d) (hnet : s.net = .received p)
    (ht : s.toSkel.step (.invoke (some p) data string) = some t)
    (hs' : s' = marked ⟨t, .invoked p, s.received, writes'⟩) :
    s'.InCall (es ++ s.answers s' p) := by
  obtain ⟨message, hc, hm⟩ := hr.message hnet
  have hidle : s.main.closing = false := by
    cases Skel.step_change ht with
    | invoke _ _ _ _ _ hpc =>
      rw [hpc]
      rfl
  obtain ⟨table, htable, hkeeps⟩ := hr.reads hidle
  obtain ⟨table', htable', hinvoked⟩ := step_invoked ht hr.serving.closable.table hc
  rw [htable] at htable'
  cases htable'
  have hes : Deferred.writesIn es = [] := by
    simpa only [InCall, hnet] using h
  have hread : ∀ e : Event, Deferred.writesIn [e] = [] → Deferred.writesIn (es ++ [e]) = [] :=
    fun e he => by rw [Deferred.writesIn_append, hes, he]; rfl
  have hstate : s'.net = .invoked p ∧ s'.main = t.main ∧ s'.messages = t.messages ∧
      s'.mem = t.mem ∧ s'.received = s.received := by
    subst hs'
    exact ⟨rfl, rfl, rfl, rfl, rfl⟩
  obtain ⟨hnet', hmain, hmessages, hmem, hreceived⟩ := hstate
  simp only [InCall, hnet', hmain, hreceived]
  have hrange : message.admitted → ¬ outOfRange s.received.opcode s.received.cType := by
    rw [← hm.opcode, ← hm.cType]
    exact id
  cases hinvoked with
  | rejected => simp
  | write put hok hop =>
    have hcell : s'.messages.cell p = some message := by rw [hmessages]; exact hc
    rw [answers_admitted hcell (hrange hok), ← hm.opcode, hop]
    cases put <;> exact ⟨rfl, by simpa [opSize, opGet, opGetkeys, opVerify, opDel, opPut] using hes⟩
  | size hok hop =>
    have hcell : s'.messages.cell p = some (invokeSize table message) := by
      rw [hmessages]
      exact Heap.set_cell ..
    rw [answers_admitted hcell (hrange hok), ← hm.opcode, hop, if_pos rfl]
    refine fun _ => ⟨_, hcell, .size (hm.opcode.symm.trans hop) (hread _ rfl) (by simp)⟩
  | get msg' mem' hok hop hget =>
    have hcell : s'.messages.cell p = some msg' := by
      rw [hmessages]
      exact Heap.set_cell ..
    obtain ⟨hopcode, hvalue⟩ := invokeGet_answers hkeeps.maps hm.key.read hget
    have hmem' : s'.mem = mem' := hmem
    rw [← hmem'] at hvalue
    have hheld : msg'.HoldsValue s'.mem.strings (s'.valueOf msg') := by
      rwa [valueOf_holds hvalue]
    rw [answers_admitted hcell (hrange hok), ← hm.opcode, hop, if_neg (by decide), if_pos rfl]
    exact fun _ => ⟨_, hcell, .get _ (hm.opcode.symm.trans hop) (hread _ rfl) hopcode
      (by simp) hheld⟩
  | noKeys hok hop hzero =>
    have hcell : s'.messages.cell p = some { message with
        opcode := opGetkeys + 1, cType := ctKeys, nKeys := 0, keys := none } := by
      rw [hmessages]
      exact Heap.set_cell ..
    rw [answers_admitted hcell (hrange hok), ← hm.opcode, hop, if_neg (by decide),
      if_neg (by decide), if_pos rfl]
    exact fun _ => ⟨_, hcell, .noKeys (hm.opcode.symm.trans hop) (hread _ rfl) rfl (by simp)⟩
  | keys hok hop =>
    have hcell : s'.messages.cell p = some { message with
        opcode := opGetkeys + 1, cType := ctKeys
        nKeys := (tableSize table % 2 ^ 64).toNat } := by
      rw [hmessages]
      exact Heap.set_cell ..
    rw [answers_admitted hcell (hrange hok), ← hm.opcode, hop, if_neg (by decide),
      if_neg (by decide), if_pos rfl]
    exact ⟨rfl, rfl, hread _ rfl, _, hcell, by simp⟩
  | verify verificado hok hop hverify =>
    have hcell : s'.messages.cell p = some { message with
        opcode := opVerify + 1, cType := ctResult, dataSize := verificado } := by
      rw [hmessages]
      exact Heap.set_cell ..
    rw [answers_admitted hcell (hrange hok), ← hm.opcode, hop, if_neg (by decide),
      if_neg (by decide), if_neg (by decide), if_pos rfl]
    exact fun _ => ⟨_, hcell, .verify (hm.opcode.symm.trans hop) (hread _ rfl) (by simp)⟩
  | unknown => simp

theorem InCall.enqueue {m : Malloc TaskT} (h : s.InCall es) (hr : s.Reflects d)
    (hallows : s.allows (.enqueue m) = true) (ht : s.toSkel.step (.enqueue m) = some t)
    (hs' : s' = marked ⟨t, s.netAfter (.enqueue m), s.received, writes'⟩) :
    s'.InCall (es ++ [.accept s.lastAssigned s.received]) := by
  obtain ⟨p, hnet⟩ := allows_inside hallows rfl
  cases Skel.step_change ht with
  | enqueue q put m msg tasks queue hpc hmsg hadd =>
    obtain ⟨rfl, message, hc, hm, hop⟩ := hr.serving.queued hnet (.inr hpc)
    rw [hmsg] at hc
    cases hc
    simp only [InCall, hnet, hpc, true_and] at h
    have hwrites : Deferred.writesIn (es ++ [.accept s.lastAssigned s.received]) =
        [s.received] := by
      rw [Deferred.writesIn_append, h]
      rfl
    subst hs'
    show InCall ⟨_, s.net, _, _⟩ _
    simp only [InCall, hnet, true_and]
    refine ⟨_, Heap.set_cell .., .write ?_ ?_ hwrites⟩
    · show s.received.opcode = opPut ∨ s.received.opcode = opDel
      rw [← hm.opcode, hop]
      cases put <;> simp
    · show (if put then opPut + 1 else opDel + 1) = s.received.opcode + 1
      rw [← hm.opcode, hop]
      cases put <;> rfl

theorem InCall.copyKeys {m : MessageMem} (h : s.InCall es) (hr : s.Reflects d)
    (hallows : s.allows (.copyKeys m) = true) (ht : s.toSkel.step (.copyKeys m) = some t)
    (hs' : s' = marked ⟨t, s.netAfter (.copyKeys m), s.received, writes'⟩) : s'.InCall es := by
  obtain ⟨p, hnet⟩ := allows_inside hallows rfl
  cases Skel.step_change ht with
  | @copyKeys q chaves m messages mem hpc =>
    simp only [InCall, hnet, hpc] at h
    obtain ⟨rfl, hop, hes, msg, keys, hc, hsize, rfl, hread⟩ := h
    obtain ⟨table, htable, -⟩ := hr.reads (by rw [hpc]; rfl)
    rw [Skel.step_copyKeys hpc htable hc] at ht
    have hroom : keys.length ≤ (tableSize table).toNat := by
      by_contra hover
      rw [invokeKeys_overflows s.mem msg m (Nat.not_le.mp hover)] at ht
      cases ht
    obtain ⟨array, mem', hrun, hkeys⟩ := invokeKeys_copies s.mem msg m hroom
    rw [hrun] at ht
    obtain ⟨rfl, rfl⟩ : s.messages.set q (some { msg with keys := some array }) = messages ∧
        mem' = mem := by
      cases ht
      exact ⟨rfl, rfl⟩
    subst hs'
    show InCall ⟨_, s.net, _, _⟩ es
    simp only [InCall, hnet]
    exact fun _ => ⟨_, Heap.set_cell .., .keys keys hop hes hsize hread (hkeys _ rfl)⟩

theorem InCall.skel (h : s.InCall es) (hr : s.Reflects d) (hallows : s.allows a = true)
    (ht : s.toSkel.step a = some t)
    (hs' : s' = marked ⟨t, s.netAfter a, s.received, s.writesAfter a⟩) :
    s'.InCall (es ++ s.shows (.skel a) s') := by
  have hquiet : s.shows (.skel a) s' = [] → s'.InCall es →
      s'.InCall (es ++ s.shows (.skel a) s') := by
    intro hnone hcall
    rwa [hnone, List.append_nil]
  have hclosing : s.main.closing = true → s.net = .closed := hr.serving.closable.closing
  cases Skel.step_change ht with
  | outside => cases hallows
  | send => exact (hr.serving.closable.unsent ht).elim
  | @invoke msg data string =>
    obtain ⟨p, hnet, rfl⟩ := allows_invoke hallows
    exact h.invoke hr hnet ht hs'
  | enqueue => exact h.enqueue hr hallows ht hs'
  | copyKeys _ _ hpc => exact hquiet rfl (h.copyKeys hr hallows ht hs')
  | getKeys chaves hpc =>
    obtain ⟨p, hnet⟩ := allows_inside hallows rfl
    obtain ⟨q, keys, hpc', hkeys, -⟩ := hr.lists ht
    simp only [InCall, hnet, hpc'] at h
    obtain ⟨rfl, hop, hes, msg, hc, hread⟩ := h
    have hshows : s.shows (.skel .getKeys) s' = [.read .keys (.keys keys)] := by
      subst hs'
      simp only [shows, Server.marked, hkeys]
      rw [storedKeys_chavesOf]
    rw [hshows]
    have hwrites : Deferred.writesIn (es ++ [(.read .keys (.keys keys) : Event)]) = [] := by
      rw [Deferred.writesIn_append, hes]
      rfl
    cases hkeys
    rw [hpc] at hpc'
    cases hpc'
    subst hs'
    show InCall ⟨_, s.net, _, _⟩ _
    simp only [InCall, hnet, true_and]
    exact ⟨hop, hwrites, msg, keys, hc, by simp [hread], rfl, by simp⟩
  | lock hpc | signal hpc =>
    obtain ⟨p, hnet⟩ := allows_inside hallows rfl
    refine hquiet rfl ?_
    subst hs'
    show InCall ⟨_, s.net, _, _⟩ es
    simpa only [InCall, hnet, hpc] using h
  | unlock hpc =>
    obtain ⟨p, hnet⟩ := allows_inside hallows rfl
    refine hquiet rfl ?_
    subst hs'
    show InCall ⟨_, s.net, _, _⟩ es
    simp only [InCall, hnet, hpc] at h ⊢
    exact fun _ => h.2
  | destroy hpc =>
    refine hquiet rfl ?_
    subst hs'
    trivial
  | clearFlag hpc | stopSignal hpc | join hpc | deleteQueue _ _ hpc =>
    refine hquiet rfl ?_
    subst hs'
    show InCall ⟨_, s.net, _, _⟩ es
    simp only [InCall, hclosing (by rw [hpc]; rfl)]
  | execute =>
    subst hs'
    refine h.frame rfl rfl rfl rfl rfl (List.subset_append_left ..) ?_
    rw [Deferred.writesIn_append]
    simp [shows, Deferred.writesIn, Server.marked]
  | finish =>
    subst hs'
    refine h.frame rfl rfl rfl rfl rfl (List.subset_append_left ..) ?_
    rw [Deferred.writesIn_append]
    simp [shows, Deferred.writesIn]
  | _ =>
    refine hquiet rfl ?_
    subst hs'
    exact h.frame rfl rfl rfl rfl rfl (List.Subset.refl _) rfl

theorem InCall.step (h : s.InCall es) (hr : s.Reflects d) (ha : a.receives = false)
    (hs : s.step a = some s') : s'.InCall (es ++ s.shows a s') := by
  obtain ⟨b, t, net', received', writes', hplan, ht, hs'⟩ := step_plan hs
  cases hplan with
  | receive => cases ha
  | skel b hallows => exact h.skel hr hallows ht hs'
  | drop | reject | reply | replyFails | release =>
    subst hs'
    trivial

/-- What `network_send` sends; a message that `invoke` rejects is not sent. -/
def sends (s : Server) (string : Malloc (List UInt8)) : Option Fields :=
  match s.net, s.main with
  | .invoked p, .returned _ result =>
    if result ≠ 0 then none
    else (do
      let message ← s.messages.load (some p)
      let (messageT, mem) ← toMessageT s.mem message string
      messageT.fields mem : Exec Fields).toOption
  | _, _ => none

end Server

-- ---------------------------------------------------------------------------
-- The reply
-- ---------------------------------------------------------------------------

/-- The value of a reply, of which only the string up to the first NUL is sent. -/
inductive Fields.HoldsValue (r : Fields) : Option (List UInt8) → Prop
  | none : r.dataSize = 0 → r.HoldsValue none
  | some : readStr block = .ok string → r.data = some string → 0 < r.dataSize →
      r.dataSize ≤ sizeofDataT → r.dataSize ≤ block.length →
      r.HoldsValue (some (block.take r.dataSize.toNat))

inductive Fields.RepliedWith (f : Fields) (es : List Event) (r : Fields) : Prop
  | write : f.opcode = opPut ∨ f.opcode = opDel → r.opcode = f.opcode + 1 →
      Deferred.writesIn es = [f] → RepliedWith f es r
  | size : f.opcode = opSize → Deferred.writesIn es = [] →
      .read .size (.number r.dataSize) ∈ es → RepliedWith f es r
  | get (value) : f.opcode = opGet → Deferred.writesIn es = [] → r.opcode = opGet + 1 →
      .read (.get f.key) (.value value) ∈ es → r.HoldsValue value → RepliedWith f es r
  | noKeys : f.opcode = opGetkeys → Deferred.writesIn es = [] →
      .read .size (.number r.keys.length) ∈ es → r.keys = [] → RepliedWith f es r
  | keys (keys) : f.opcode = opGetkeys → Deferred.writesIn es = [] →
      .read .size (.number r.keys.length) ∈ es → .read .keys (.keys keys) ∈ es →
      (r.keys.length = keys.length → r.keys = keys) → RepliedWith f es r
  | verify : f.opcode = opVerify → Deferred.writesIn es = [] →
      .ask f.dataSize (decide (r.dataSize = 0)) ∈ es → RepliedWith f es r

theorem toMessageT_same {message : MessageT} (h : toMessageT mem message m = .ok (messageT, mem')) :
    messageT = message := by
  unfold toMessageT at h
  dsimp only at h
  split at h
  · obtain ⟨mem₁, -, h⟩ := seq_ok h
    cases h
    rfl
  · cases h
    rfl

theorem toMessageT_keyStrs {message : MessageT} (hk : message.keyStrs mem = .ok keys)
    (h : toMessageT mem message m = .ok (message, mem')) : message.keyStrs mem' = .ok keys := by
  -- only the keys matter for what the loop does
  let bare : MessageT := { message with data := none, key := none, base := ⟨none⟩ }
  have hsaid : bare.Says mem ⟨bare.opcode, bare.cType, bare.dataSize, none, none, keys, []⟩ :=
    ⟨rfl, rfl, hk, rfl, rfl, rfl, rfl⟩
  obtain ⟨mem₁, hrun, hsaid', -⟩ := toMessageT_says hsaid m
  have hmem : mem₁ = mem' := by
    unfold toMessageT at h hrun
    dsimp only [bare] at h hrun
    split at h
    · rename_i hne
      rw [if_pos hne] at hrun
      obtain ⟨mem₂, hloop, h⟩ := seq_ok h
      cases h
      rw [hloop] at hrun
      cases hrun
      rfl
    · rename_i hne
      rw [if_neg hne] at hrun
      cases h
      cases hrun
      rfl
  exact hmem ▸ hsaid'.keys

theorem Server.sends_says {s : Server} (h : s.sends string = some r) :
    ∃ p msg result mem, s.net = .invoked p ∧ s.main = .returned result 0 ∧
      s.messages.cell p = some msg ∧ toMessageT s.mem msg string = .ok (msg, mem) ∧
      msg.Says mem r := by
  unfold sends at h
  split at h
  · rename_i p q result hnet hmain
    split at h
    · cases h
    · rename_i hz
      obtain rfl : result = 0 := not_not.mp hz
      obtain ⟨msg, hload, h⟩ := seq_ok (toOption_some.mp h)
      obtain ⟨_, ha, hc⟩ := Heap.load_ok hload
      cases ha
      obtain ⟨⟨messageT, mem⟩, hto, hfields⟩ := seq_ok h
      obtain rfl := toMessageT_same hto
      exact ⟨p, messageT, q, mem, hnet, hmain, hc, hto, fields_ok.mp hfields⟩
  · cases h

theorem Server.InCall.reply {s : Server} (h : s.InCall es) (hs : s.sends string = some r) :
    s.received.RepliedWith es r := by
  obtain ⟨p, msg, q, mem, hnet, hmain, hc, hto, hsaid⟩ := Server.sends_says hs
  simp only [InCall, hnet, hmain] at h
  obtain ⟨msg', hc', hanswers⟩ := h trivial
  rw [hc] at hc'
  cases hc'
  obtain ⟨hg, -⟩ := toMessageT_fresh hto
  obtain ⟨hlen, -⟩ := keyStrs_ok hsaid.keys
  cases hanswers with
  | write hf hop hes => exact .write hf (hsaid.opcode.symm.trans hop) hes
  | size hf hes hread => exact .size hf hes (hsaid.dataSize ▸ hread)
  | get value hf hes hop hread hv =>
    refine .get value hf hes (hsaid.opcode.symm.trans hop) hread ?_
    cases hv with
    | none hz _ => exact .none (hsaid.dataSize.symm.trans hz)
    | @some block hb hp hfits hl =>
      rw [hsaid.dataSize] at hp hfits hl ⊢
      obtain ⟨string, hstring, hdata⟩ : ∃ string, readStr block = .ok string ∧
          r.data = some string := by
        have hdata := hsaid.data
        have hb' := blockOrNull_grows hg hb
        cases hptr : msg.data with
        | none =>
          rw [hptr] at hb'
          cases hb'
        | some a =>
          rw [hptr] at hdata hb'
          obtain ⟨block', hload, hb'⟩ := seq_ok hb'
          cases hb'
          simp only [strOrNull, strAt, hload, ok_bind] at hdata
          obtain ⟨string, hstring, hdata⟩ := seq_ok hdata
          exact ⟨string, hstring, (Except.ok.inj hdata).symm⟩
      exact .some hstring hdata hp hfits hl
  | noKeys hf hes hn hread =>
    refine .noKeys hf hes ?_ (List.length_eq_zero_iff.mp (hlen.trans hn))
    rwa [hlen]
  | keys keys hf hes hsize hread hk =>
    refine .keys keys hf hes ?_ hread fun heq => ?_
    · rwa [hlen]
    · have hkeys := toMessageT_keyStrs (hk (hlen ▸ heq)) hto
      rw [hsaid.keys] at hkeys
      exact Except.ok.inj hkeys
  | verify hf hes hask => exact .verify hf hes (hsaid.dataSize ▸ hask)

end HashMapStorage

import HashMapStorage.Replies
import HashMapStorage.StubOps

/-!
# Calls over the network

A client calls an operation of the stub, the server serves its request among
the steps of the worker, and the reply comes back. What the operation returns
is what the deferred store says in some state between the two: the writes that
were accepted by then are those before the call, and for a PUT or a DEL its own.
-/

namespace HashMapStorage

open Machine

-- ---------------------------------------------------------------------------
-- What a call returns
-- ---------------------------------------------------------------------------

def mapAfter (d : Deferred Fields) (k : Nat) : Contents := tableStore.after (d.log.take k)

theorem tableStore_concat (ws : List Fields) (w : Fields) :
    tableStore.after (ws ++ [w]) = (tableStore.after ws).write w := by
  simp [Store.after, tableStore]

theorem tableStore_value (h : tableStore.after ws key = some bytes) :
    ∃ f ∈ ws, f.value = some bytes := by
  induction ws using List.reverseRecOn with
  | nil => cases h
  | append_singleton ws w ih =>
    have hold : tableStore.after ws key = some bytes → ∃ f ∈ ws ++ [w], f.value = some bytes := by
      intro hsome
      obtain ⟨f, hf, hvalue⟩ := ih hsome
      exact ⟨f, by simp [hf], hvalue⟩
    rw [tableStore_concat, Contents.write] at h
    cases hk : w.key with
    | none =>
      rw [hk] at h
      exact hold h
    | some key' =>
      simp only [hk] at h
      by_cases hput : w.opcode = opPut
      · rw [if_pos hput] at h
        cases hv : w.value with
        | none =>
          rw [hv] at h
          exact hold h
        | some bytes' =>
          simp only [hv] at h
          by_cases he : key = key'
          · rw [he, Function.update_self] at h
            exact ⟨w, by simp, hv.trans h⟩
          · rw [Function.update_of_ne he] at h
            exact hold h
      · rw [if_neg hput] at h
        by_cases he : key = key'
        · rw [he, Function.update_self] at h
          cases h
        · rw [Function.update_of_ne he] at h
          exact hold h

theorem Fields.value_dropLast {f : Fields} (h : f.value = some bytes) : 0 ∉ bytes.dropLast := by
  unfold Fields.value at h
  split at h
  · cases h
  · obtain ⟨s, -, rfl⟩ := Option.map_eq_some_iff.mp h
    intro hz
    have hshort : (s.block.take f.dataSize.toNat).dropLast <+: s.block :=
      (List.dropLast_prefix _).trans (List.take_prefix ..)
    have hbytes : s.bytes <+: s.block := List.prefix_append ..
    have hfirst : (s.block.take f.dataSize.toNat).dropLast <+: s.bytes := by
      refine List.prefix_of_prefix_length_le hshort hbytes ?_
      simp only [List.length_dropLast, List.length_take, CStr.block_length]
      omega
    exact s.nulFree (hfirst.subset hz)

theorem sent_value (hr : readStr block = .ok string) (hn : n ≤ block.length)
    (hz : 0 ∉ (block.take n).dropLast) :
    n ≤ string.bytes.length + 1 ∧ string.block.take n = block.take n := by
  obtain ⟨rest, rfl⟩ := readStr_ok hr
  have hle : n ≤ string.bytes.length + 1 := by
    by_contra hlt
    apply hz
    obtain ⟨k, rfl⟩ : ∃ k, n = string.bytes.length + (k + 2) :=
      ⟨n - string.bytes.length - 2, by omega⟩
    simp only [List.length_append, List.length_cons] at hn
    obtain ⟨b, rest, rfl⟩ : ∃ b rest', rest = b :: rest' := by
      cases rest with
      | nil => simp at hn
      | cons b rest => exact ⟨b, rest, rfl⟩
    rw [List.take_length_add_append, List.take_succ_cons, List.take_succ_cons]
    simp
  refine ⟨hle, ?_⟩
  have hblock : string.bytes ++ 0 :: rest = string.block ++ rest := by simp [CStr.block]
  rw [hblock, List.take_append_of_le_length (by rw [CStr.block_length]; exact hle)]

-- ---------------------------------------------------------------------------
-- The server's side of a call
-- ---------------------------------------------------------------------------

namespace Server

variable {s s' : Server} {d : Deferred Fields} {es : List Event}

theorem step_received (ha : a.receives = false) (hs : s.step a = some s') :
    s'.received = s.received := by
  obtain ⟨b, t, net', received', writes', hplan, -, rfl⟩ := step_plan hs
  cases hplan with
  | receive => cases ha
  | _ => rfl

theorem InCall.run {as : List ServerStep} (h : s.InCall es) (hr : s.Reflects d)
    (ha : Along Server.step (fun s a => s.lasting a) s as)
    (hn : ∀ a ∈ as, a.receives = false) (hrun : run Server.step s as = some s') :
    ∃ d', Accepts (Deferred.Next tableStore) d (history Server.step Server.shows s as) d' ∧
      s'.Reflects d' ∧ s'.received = s.received ∧
      s'.InCall (es ++ history Server.step Server.shows s as) := by
  induction as generalizing s d es with
  | nil =>
    cases hrun
    exact ⟨d, .nil, hr, rfl, by simpa [history] using h⟩
  | cons a as ih =>
    obtain ⟨s₁, hs₁, hrun⟩ := run_cons hrun
    obtain ⟨hlasting, ha⟩ := ha.next hs₁
    obtain ⟨d₁, hshown, hr₁⟩ := hr.step hlasting hs₁
    have hfirst := hn a (List.mem_cons_self ..)
    have h₁ := h.step hr hfirst hs₁
    obtain ⟨d', hrest, hr', hsame, h'⟩ :=
      ih h₁ hr₁ ha (fun b hb => hn b (List.mem_cons_of_mem _ hb)) hrun
    simp only [history, hs₁]
    rw [← List.append_assoc]
    exact ⟨d', hshown.append hrest, hr', hsame.trans (step_received hfirst hs₁), h'⟩

end Server

-- ---------------------------------------------------------------------------
-- What the replies say
-- ---------------------------------------------------------------------------

namespace Fields.RepliedWith

variable {f r : Fields} {es : List Event} {d d' : Deferred Fields}

theorem of_get (h : f.RepliedWith es r) (hf : f.opcode = opGet) :
    Deferred.writesIn es = [] ∧ r.opcode = opGet + 1 ∧
      ∃ value, .read (.get f.key) (.value value) ∈ es ∧ r.HoldsValue value := by
  cases h with
  | get value _ hes hop hread hv => exact ⟨hes, hop, value, hread, hv⟩
  | _ => simp_all [opPut, opDel, opSize, opGet, opGetkeys, opVerify]

theorem found (h : f.RepliedWith es r) (hf : f.opcode = opGet)
    (ha : Accepts (Deferred.Next tableStore) d es d') :
    ∃ k, d.applied ≤ k ∧ k ≤ d'.applied ∧
      match f.key.bind (mapAfter d' k) with
      | none => r.dataSize = 0
      | some bytes => ∃ string, r.data = some string ∧ r.dataSize = bytes.length ∧
          0 < r.dataSize ∧ r.dataSize ≤ sizeofDataT ∧ r.dataSize ≤ string.bytes.length + 1 ∧
          string.block.take r.dataSize.toNat = bytes := by
  obtain ⟨-, -, value, hread, hv⟩ := h.of_get hf
  obtain ⟨k, hfrom, hto, -, hreplies⟩ := Deferred.read_within ha hread
  obtain rfl : value = f.key.bind (mapAfter d' k) := by
    generalize hquery : Query.get f.key = query at hreplies
    generalize hreply : Reply.value value = reply at hreplies
    cases hreplies with
    | get =>
      cases hquery
      cases hreply
      rfl
    | size => cases hquery
    | keys => cases hquery
  refine ⟨k, hfrom, hto, ?_⟩
  generalize hvalue : f.key.bind (mapAfter d' k) = value at hv
  cases hv with
  | none hz => exact hz
  | @some block string hstring hdata hp hfits hl =>
    obtain ⟨key, -, hput⟩ := Option.bind_eq_some_iff.mp hvalue
    obtain ⟨g, -, hg⟩ := tableStore_value hput
    have hn : r.dataSize.toNat ≤ block.length := Int.toNat_le.mpr hl
    obtain ⟨hshort, htake⟩ := sent_value hstring hn (Fields.value_dropLast hg)
    refine ⟨string, hdata, ?_, hp, hfits, Int.toNat_le.mp hshort, htake⟩
    rw [List.length_take, Nat.min_eq_left hn, Int.toNat_of_nonneg (Int.le_of_lt hp)]

end Fields.RepliedWith

section

variable {es : List Event} {d d' : Deferred Fields}

end

theorem Contents.Lists.length_eq {m : Contents} (h : m.Lists keys) (h' : m.Lists keys') :
    keys.length = keys'.length := by
  refine List.Perm.length_eq ((List.perm_ext_iff_of_nodup h.nodup h'.nodup).mpr fun key => ?_)
  rw [h.mem, h'.mem]

-- ---------------------------------------------------------------------------
-- The client's side of a call
-- ---------------------------------------------------------------------------

namespace StubOp

def opcode : StubOp → Int
  | put _ => opPut
  | get _ => opGet
  | del _ => opDel
  | size => opSize
  | getKeys => opGetkeys
  | verify _ => opVerify

variable {f r : Fields} {es : List Event} {d d' : Deferred Fields}

end StubOp

theorem survives_connected (op : StubOp) {response : Response} {reply : Option Fields}
    (hkey : ∀ request ∈ op.request, ∃ s, strOrNull client.strings request.key = .ok s)
    (hreply : response.Says reply) (hsafe : op.Safe client (some t) reply) (m : MessageMem)
    (data : DataMem) : op.Survives client (some t) m data response reply := by
  cases op with
  | put entry => exact (put_survives_iff hkey hreply).mpr hsafe
  | get key => exact (get_survives_iff hkey hreply).mpr hsafe
  | del key => exact (del_survives_iff hkey hreply).mpr hsafe
  | size => exact (size_survives_iff hreply).mpr hsafe
  | getKeys => exact (getKeys_survives_iff hreply).mpr hsafe
  | verify opN => exact (verify_survives_iff hreply).mpr hsafe

-- ---------------------------------------------------------------------------
-- Calls
-- ---------------------------------------------------------------------------

def getReply : Fields :=
  ⟨opGet + 1, ctValue, 2, some (.ofBytes [97]), some (.ofBytes [97]), [], []⟩

end HashMapStorage

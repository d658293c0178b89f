import HashMapStorage.Machine.Refinement
import Mathlib.Data.List.TakeDrop

/-!
# Stores that apply writes later

A deferred store numbers the writes it accepts and applies them afterwards, in
that order. A read sees the state after the writes applied by then; whoever
asks after a number learns whether its write has been confirmed, which happens
some time after it has been applied. What is accepted here does not depend on
what a state, a write or a query is.
-/

namespace Machine

/-- The states of a store: its first one, what a write does to a state, and the
replies a query may get in it. -/
structure Store (σ ω γ ρ : Type) where
  first : σ
  write : σ → ω → σ
  replies : σ → γ → ρ → Prop

def Store.after (S : Store σ ω γ ρ) (ws : List ω) : σ := ws.foldl S.write S.first

/-- The writes accepted, and how many of them are applied and confirmed. -/
structure Deferred (ω : Type) where
  log : List ω
  applied : Nat
  confirmed : Nat
  applied_le : applied ≤ log.length
  confirmed_le : confirmed ≤ applied

inductive DeferredEvent (ω γ ρ : Type)
  | accept (number : Int) (write : ω)
  | apply (number : Int)
  | confirm (number : Int)
  | read (query : γ) (reply : ρ)
  | ask (number : Int) (confirmed : Bool)
  deriving DecidableEq

namespace Deferred

variable {σ ω γ ρ : Type} {S : Store σ ω γ ρ}

def empty : Deferred ω := ⟨[], 0, 0, Nat.le_refl 0, Nat.le_refl 0⟩

def accept (d : Deferred ω) (w : ω) : Deferred ω where
  log := d.log ++ [w]
  applied := d.applied
  confirmed := d.confirmed
  applied_le := by
    rw [List.length_append]
    exact Nat.le_add_right_of_le d.applied_le
  confirmed_le := d.confirmed_le

def apply (d : Deferred ω) (h : d.applied < d.log.length) : Deferred ω :=
  { d with
    applied := d.applied + 1
    applied_le := h
    confirmed_le := Nat.le_succ_of_le d.confirmed_le }

def confirm (d : Deferred ω) (h : d.confirmed < d.applied) : Deferred ω :=
  { d with confirmed := d.confirmed + 1, confirmed_le := h }

@[simp] theorem accept_log (d : Deferred ω) (w : ω) : (d.accept w).log = d.log ++ [w] := rfl

@[simp] theorem apply_log (d : Deferred ω) (h : d.applied < d.log.length) :
    (d.apply h).log = d.log := rfl

@[simp] theorem apply_applied (d : Deferred ω) (h : d.applied < d.log.length) :
    (d.apply h).applied = d.applied + 1 := rfl

@[simp] theorem confirm_confirmed (d : Deferred ω) (h : d.confirmed < d.applied) :
    (d.confirm h).confirmed = d.confirmed + 1 := rfl

def state (S : Store σ ω γ ρ) (d : Deferred ω) : σ := S.after (d.log.take d.applied)

theorem state_accept (S : Store σ ω γ ρ) (d : Deferred ω) (w : ω) :
    (d.accept w).state S = d.state S := by
  simp only [state, accept, List.take_append_of_le_length d.applied_le]

theorem state_apply (S : Store σ ω γ ρ) (d : Deferred ω) (h : d.applied < d.log.length) :
    (d.apply h).state S = S.write (d.state S) d.log[d.applied] := by
  simp only [state, apply, Store.after, List.take_succ_eq_append_getElem h, List.foldl_append,
    List.foldl_cons, List.foldl_nil]

inductive Next (S : Store σ ω γ ρ) : Deferred ω → DeferredEvent ω γ ρ → Deferred ω → Prop
  | accept (w) : Next S d (.accept d.log.length w) (d.accept w)
  | apply (h) : Next S d (.apply d.applied) (d.apply h)
  | confirm (h) : Next S d (.confirm d.confirmed) (d.confirm h)
  | read : S.replies (d.state S) query reply → Next S d (.read query reply) d
  | ask (number) : Next S d (.ask number (decide (0 ≤ number ∧ number < d.confirmed))) d

variable {d d₁ d' : Deferred ω}

def writesIn (es : List (DeferredEvent ω γ ρ)) : List ω :=
  es.filterMap fun
    | .accept _ w => some w
    | _ => none

theorem writesIn_append (es fs : List (DeferredEvent ω γ ρ)) :
    writesIn (es ++ fs) = writesIn es ++ writesIn fs := List.filterMap_append

-- ---------------------------------------------------------------------------
-- Histories of a deferred store
-- ---------------------------------------------------------------------------

structure Extends (d : Deferred ω) (ws : List ω) (d' : Deferred ω) : Prop where
  log : d'.log = d.log ++ ws
  applied : d.applied ≤ d'.applied
  confirmed : d.confirmed ≤ d'.confirmed

theorem Extends.trans (h : d.Extends ws d₁) (h' : d₁.Extends vs d') :
    d.Extends (ws ++ vs) d' := by
  refine ⟨?_, Nat.le_trans h.applied h'.applied, Nat.le_trans h.confirmed h'.confirmed⟩
  rw [h'.log, h.log, List.append_assoc]

theorem Next.extends (h : Next S d e d') : d.Extends (writesIn [e]) d' := by
  cases h with
  | accept w => exact ⟨rfl, Nat.le_refl _, Nat.le_refl _⟩
  | apply h => exact ⟨(List.append_nil _).symm, Nat.le_succ _, Nat.le_refl _⟩
  | confirm h => exact ⟨(List.append_nil _).symm, Nat.le_refl _, Nat.le_succ _⟩
  | read | ask => exact ⟨(List.append_nil _).symm, Nat.le_refl _, Nat.le_refl _⟩

theorem extends_of_accepts (h : Accepts (Next S) d es d') : d.Extends (writesIn es) d' := by
  induction h with
  | nil => exact ⟨(List.append_nil _).symm, Nat.le_refl _, Nat.le_refl _⟩
  | @cons d e d₁ es d' he _ ih =>
    rw [← List.singleton_append, writesIn_append]
    exact he.extends.trans ih

/-- The reply is right for the first `k` of the writes. -/
structure Sees (S : Store σ ω γ ρ) (ws : List ω) (query : γ) (reply : ρ) (k : Nat) : Prop where
  bound : k ≤ ws.length
  replies : S.replies (S.after (ws.take k)) query reply

theorem read_sees (h : Next S d (.read query reply) d') : Sees S d.log query reply d.applied := by
  cases h with
  | read hreply => exact ⟨d.applied_le, hreply⟩

theorem read_within (h : Accepts (Next S) d es d') (he : .read query reply ∈ es) :
    ∃ k, d.applied ≤ k ∧ k ≤ d'.applied ∧ Sees S d'.log query reply k := by
  obtain ⟨xs, ys, rfl⟩ := List.append_of_mem he
  obtain ⟨d₁, d₂, hfirst, hread, hrest⟩ := h.at_event
  have hsees := read_sees hread
  have hsame : d₂ = d₁ := by
    cases hread
    rfl
  subst hsame
  have hlater := extends_of_accepts hrest
  refine ⟨d₂.applied, (extends_of_accepts hfirst).applied, hlater.applied, ?_, ?_⟩
  · exact Nat.le_trans hlater.applied d'.applied_le
  · rw [hlater.log, List.take_append_of_le_length d₂.applied_le]
    exact hsees.replies

end Deferred

end Machine

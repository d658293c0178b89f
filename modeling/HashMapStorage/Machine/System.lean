import Mathlib.Algebra.Group.Defs
import Mathlib.Tactic.Common

/-!
# Runs of a system

A system is its step function: `step s a` is the state after the step `a`, or
`none` where `s` does not allow it. What the surroundings decide is part of the
step. A property of every run comes from what one step does: a property that
the steps keep (`run_keeps`), a measure that they lower (`run_measure`).
-/

namespace Machine

variable {σ α : Type} {step : σ → α → Option σ}

def run (step : σ → α → Option σ) : σ → List α → Option σ
  | s, [] => some s
  | s, a :: as => (step s a).bind fun s' => run step s' as

/-- Every step of the run is taken in a state that meets `ok`. -/
def Along (step : σ → α → Option σ) (ok : σ → α → Prop) : σ → List α → Prop
  | _, [] => True
  | s, a :: as =>
    ok s a ∧
      match step s a with
      | some s' => Along step ok s' as
      | none => True

instance decidableAlong (step : σ → α → Option σ) (ok : σ → α → Prop)
    [∀ s a, Decidable (ok s a)] : (s : σ) → (as : List α) → Decidable (Along step ok s as)
  | _, [] => inferInstanceAs (Decidable True)
  | s, a :: as =>
    match h : step s a with
    | some s' =>
      have := decidableAlong step ok s' as
      decidable_of_iff (ok s a ∧ Along step ok s' as) (by simp only [Along, h])
    | none => decidable_of_iff (ok s a) (by simp only [Along, h, and_true])

/-- The property holds in every state of the run, the first and the last one
included. -/
def Throughout (step : σ → α → Option σ) (P : σ → Prop) : σ → List α → Prop
  | s, [] => P s
  | s, a :: as =>
    P s ∧
      match step s a with
      | some s' => Throughout step P s' as
      | none => True

def Sometime (step : σ → α → Option σ) (P : σ → Prop) (s : σ) (as : List α) : Prop :=
  ∃ before s', before <+: as ∧ run step s before = some s' ∧ P s'

theorem run_cons (h : run step s (a :: as) = some s') :
    ∃ s₁, step s a = some s₁ ∧ run step s₁ as = some s' := by
  rw [run, Option.bind_eq_some_iff] at h
  exact h

theorem run_append (s : σ) (as bs : List α) :
    run step s (as ++ bs) = (run step s as).bind fun s' => run step s' bs := by
  induction as generalizing s with
  | nil => rfl
  | cons a as ih =>
    simp only [List.cons_append, run, Option.bind_assoc]
    cases step s a with
    | none => rfl
    | some s₁ => exact ih s₁

theorem Along.next (ha : Along step ok s (a :: as)) (hs : step s a = some s') :
    ok s a ∧ Along step ok s' as := by
  simpa only [Along, hs] using ha

theorem Along.append (ha : Along step ok s (as ++ bs)) (hr : run step s as = some s') :
    Along step ok s as ∧ Along step ok s' bs := by
  induction as generalizing s with
  | nil =>
    cases hr
    exact ⟨trivial, ha⟩
  | cons a as ih =>
    obtain ⟨s₁, hs₁, hr⟩ := run_cons hr
    obtain ⟨hok, ha⟩ := ha.next hs₁
    obtain ⟨hfirst, hsecond⟩ := ih ha hr
    exact ⟨by simpa only [Along, hs₁] using And.intro hok hfirst, hsecond⟩

theorem Along.concat (ha : Along step ok s as) (hr : run step s as = some s')
    (hb : Along step ok s' bs) : Along step ok s (as ++ bs) := by
  induction as generalizing s with
  | nil =>
    cases hr
    exact hb
  | cons a as ih =>
    obtain ⟨s₁, hs₁, hr⟩ := run_cons hr
    obtain ⟨hok, ha⟩ := ha.next hs₁
    have hrest := ih ha hr
    simpa only [List.cons_append, Along, hs₁] using And.intro hok hrest

theorem along_of_forall (h : ∀ s, ∀ a ∈ as, ok s a) : Along step ok s as := by
  induction as generalizing s with
  | nil => trivial
  | cons a as ih =>
    refine ⟨h s a (List.mem_cons_self ..), ?_⟩
    cases step s a with
    | none => trivial
    | some s' => exact ih fun s b hb => h s b (List.mem_cons_of_mem _ hb)

theorem Along.and {P : α → Prop} (ha : Along step ok s as) (hp : ∀ a ∈ as, P a) :
    Along step (fun s a => ok s a ∧ P a) s as := by
  induction as generalizing s with
  | nil => trivial
  | cons a as ih =>
    refine ⟨⟨ha.1, hp a (List.mem_cons_self ..)⟩, ?_⟩
    cases hs : step s a with
    | none => trivial
    | some s' => exact ih (ha.next hs).2 fun b hb => hp b (List.mem_cons_of_mem _ hb)

theorem Along.both (hx : Along step ok s as) {ok' : σ → α → Prop} (hy : Along step ok' s as) :
    Along step (fun s a => ok s a ∧ ok' s a) s as := by
  induction as generalizing s with
  | nil => trivial
  | cons a as ih =>
    refine ⟨⟨hx.1, hy.1⟩, ?_⟩
    cases hs : step s a with
    | none => trivial
    | some s' => exact ih (hx.next hs).2 (hy.next hs).2

theorem not_along (hr : run step s as = some s') (hnot : ¬ Along step ok s as) :
    ∃ before a after s₁, as = before ++ a :: after ∧ run step s before = some s₁ ∧ ¬ ok s₁ a := by
  induction as generalizing s with
  | nil => exact absurd trivial hnot
  | cons a as ih =>
    obtain ⟨s₁, hs₁, hr⟩ := run_cons hr
    by_cases hok : ok s a
    · simp only [Along, hs₁, hok, true_and] at hnot
      obtain ⟨before, b, after, s₂, rfl, hbefore, hb⟩ := ih hr hnot
      exact ⟨a :: before, b, after, s₂, rfl, by rw [run, hs₁, Option.bind_some, hbefore], hb⟩
    · exact ⟨[], a, as, s, rfl, rfl, hok⟩

/-- A property that every step keeps holds in every state of the run. -/
theorem run_keeps {Inv : σ → Prop}
    (hstep : ∀ s a s', Inv s → ok s a → step s a = some s' → Inv s') (hs : Inv s)
    (ha : Along step ok s as) (hr : run step s as = some s') : Inv s' := by
  induction as generalizing s with
  | nil =>
    cases hr
    exact hs
  | cons a as ih =>
    obtain ⟨s₁, hs₁, hr⟩ := run_cons hr
    obtain ⟨hok, ha⟩ := ha.next hs₁
    exact ih (hstep s a s₁ hs hok hs₁) ha hr

theorem throughout_of_keeps {Inv P : σ → Prop}
    (hstep : ∀ s a s', Inv s → ok s a → step s a = some s' → Inv s') (hp : ∀ s, Inv s → P s)
    (hs : Inv s) (ha : Along step ok s as) : Throughout step P s as := by
  induction as generalizing s with
  | nil => exact hp s hs
  | cons a as ih =>
    refine ⟨hp s hs, ?_⟩
    cases hs₁ : step s a with
    | none => trivial
    | some s₁ =>
      obtain ⟨hok, ha⟩ := ha.next hs₁
      exact ih (hstep s a s₁ hs hok hs₁) ha

theorem along_congr {Inv : σ → Prop} {P : σ → α → Prop}
    (hstep : ∀ s a s', Inv s → ok s a → step s a = some s' → Inv s')
    (hiff : ∀ s a s', Inv s → step s a = some s' → (P s a ↔ ok s a)) (hs : Inv s)
    (hr : run step s as = some s') : Along step P s as ↔ Along step ok s as := by
  induction as generalizing s with
  | nil => exact iff_of_true trivial trivial
  | cons a as ih =>
    obtain ⟨s₁, hs₁, hr⟩ := run_cons hr
    have hhere := hiff s a s₁ hs hs₁
    simp only [Along, hs₁]
    constructor
    · rintro ⟨hp, hrest⟩
      have hok := hhere.mp hp
      exact ⟨hok, (ih (hstep s a s₁ hs hok hs₁) hr).mp hrest⟩
    · rintro ⟨hok, hrest⟩
      exact ⟨hhere.mpr hok, (ih (hstep s a s₁ hs hok hs₁) hr).mpr hrest⟩

theorem Throughout.first {P : σ → Prop} (h : Throughout step P s as) : P s := by
  cases as with
  | nil => exact h
  | cons a as => exact h.1

/-- Where a step keeps a property exactly when it is taken in a state that
meets `ok`, the property holds throughout exactly the runs whose steps all are. -/
theorem throughout_iff_along {Inv P : σ → Prop}
    (hstep : ∀ s a s', Inv s → P s → step s a = some s' → Inv s' ∧ (P s' ↔ ok s a)) (hs : Inv s)
    (hp : P s) (hr : run step s as = some s') : Throughout step P s as ↔ Along step ok s as := by
  induction as generalizing s with
  | nil => exact iff_of_true hp trivial
  | cons a as ih =>
    obtain ⟨s₁, hs₁, hr⟩ := run_cons hr
    obtain ⟨hinv, hiff⟩ := hstep s a s₁ hs hp hs₁
    simp only [Throughout, Along, hs₁]
    constructor
    · rintro ⟨-, hrest⟩
      exact ⟨hiff.mp hrest.first, (ih hinv hrest.first hr).mp hrest⟩
    · rintro ⟨hok, hrest⟩
      exact ⟨hp, (ih hinv (hiff.mpr hok) hr).mpr hrest⟩

theorem defined_throughout_iff_along (Inv : σ → Prop) {P : σ → Prop} (hp : ∀ s, Inv s → P s)
    (hok : ∀ s a, Inv s → ok s a → ∃ s', step s a = some s' ∧ Inv s')
    (hstep : ∀ s a s', Inv s → step s a = some s' → P s' → ok s a) (hs : Inv s) :
    ((∃ s', run step s as = some s') ∧ Throughout step P s as) ↔ Along step ok s as := by
  induction as generalizing s with
  | nil => exact iff_of_true ⟨⟨s, rfl⟩, hp s hs⟩ trivial
  | cons a as ih =>
    constructor
    · rintro ⟨⟨s', hr⟩, hall⟩
      obtain ⟨s₁, hs₁, hr⟩ := run_cons hr
      simp only [Throughout, hs₁] at hall
      have hgood := hstep s a s₁ hs hs₁ hall.2.first
      obtain ⟨s₂, hs₂, hinv⟩ := hok s a hs hgood
      rw [hs₁] at hs₂
      cases hs₂
      simp only [Along, hs₁]
      exact ⟨hgood, (ih hinv).mp ⟨⟨s', hr⟩, hall.2⟩⟩
    · intro ha
      obtain ⟨s₁, hs₁, hinv⟩ := hok s a hs ha.1
      obtain ⟨⟨s', hr⟩, hall⟩ := (ih hinv).mpr (ha.next hs₁).2
      refine ⟨⟨s', by rw [run, hs₁, Option.bind_some, hr]⟩, ?_⟩
      simp only [Throughout, hs₁]
      exact ⟨hp s hs, hall⟩

theorem run_measure {Inv : σ → Prop} {μ : σ → Nat} {counts : α → Bool}
    (hstep : ∀ s a s', Inv s → ok s a → step s a = some s' →
      Inv s' ∧ μ s' + (if counts a then 1 else 0) ≤ μ s)
    (hs : Inv s) (ha : Along step ok s as) (hr : run step s as = some s') :
    μ s' + as.countP counts ≤ μ s := by
  induction as generalizing s with
  | nil =>
    cases hr
    simp
  | cons a as ih =>
    obtain ⟨s₁, hs₁, hr⟩ := run_cons hr
    obtain ⟨hok, ha⟩ := ha.next hs₁
    obtain ⟨hinv, hμ⟩ := hstep s a s₁ hs hok hs₁
    have hrest := ih hinv ha hr
    rw [List.countP_cons]
    omega

def total {M : Type} [AddMonoid M] (step : σ → α → Option σ) (cost : σ → α → M) : σ → List α → M
  | _, [] => 0
  | s, a :: as =>
    cost s a +
      match step s a with
      | some s' => total step cost s' as
      | none => 0

/-- Where each step that counts lowers a measure, or the goal is there and
stays, enough such steps reach it. -/
theorem run_reaches {Inv goal : σ → Prop} {μ : σ → Nat} {counts : α → Bool}
    (hstep : ∀ s a s', Inv s → ok s a → step s a = some s' →
      Inv s' ∧ (goal s → goal s') ∧ (goal s' ∨ μ s' + (if counts a then 1 else 0) ≤ μ s))
    (hs : Inv s) (ha : Along step ok s as) (hr : run step s as = some s')
    (hn : μ s < as.countP counts) : goal s' := by
  have hreach : Inv s' ∧ (goal s' ∨ ¬ goal s ∧ μ s' + as.countP counts ≤ μ s) := by
    clear hn
    induction as generalizing s with
    | nil =>
      cases hr
      refine ⟨hs, ?_⟩
      by_cases hg : goal s'
      · exact .inl hg
      · exact .inr ⟨hg, by simp⟩
    | cons a as ih =>
      obtain ⟨s₁, hs₁, hr⟩ := run_cons hr
      obtain ⟨hok, ha⟩ := ha.next hs₁
      obtain ⟨hinv, hkeep, hlower⟩ := hstep s a s₁ hs hok hs₁
      obtain ⟨hinv', hgoal | ⟨hnot, hrest⟩⟩ := ih hinv ha hr
      · exact ⟨hinv', .inl hgoal⟩
      · have hμ := hlower.resolve_left hnot
        refine ⟨hinv', .inr ⟨fun hg => hnot (hkeep hg), ?_⟩⟩
        rw [List.countP_cons]
        omega
  rcases hreach.2 with hgoal | ⟨-, hle⟩
  · exact hgoal
  · omega

-- ---------------------------------------------------------------------------
-- Schedules
-- ---------------------------------------------------------------------------

def firstSteps (as : Nat → α) (n : Nat) : List α := (List.range n).map as

theorem run_firstSteps_succ (s : σ) (as : Nat → α) (n : Nat) :
    run step s (firstSteps as (n + 1)) =
      (run step s (firstSteps as n)).bind fun s' => step s' (as n) := by
  rw [firstSteps, List.range_succ, List.map_append, run_append]
  refine congrArg _ (funext fun s' => ?_)
  simp only [List.map_cons, List.map_nil, run]
  cases step s' (as n) <;> rfl

theorem run_firstSteps_ended {ended : σ → Prop} (hended : ∀ s a, ended s → step s a = none)
    (hr : run step s (firstSteps as n) = some s') (he : ended s') (hn : n < k) :
    run step s (firstSteps as k) = none := by
  obtain ⟨j, rfl⟩ := Nat.exists_eq_add_of_lt hn
  induction j with
  | zero => rw [Nat.add_zero, run_firstSteps_succ, hr, Option.bind_some, hended s' _ he]
  | succ j ih => rw [← Nat.add_assoc, run_firstSteps_succ, ih (by omega), Option.bind_none]

/-- A schedule that goes on until the run has ended, and of whose steps all but
finitely many lower a measure, ends it. -/
theorem schedule_ends {Inv ended : σ → Prop} {μ : σ → Nat} {idle : α → Bool}
    (hstep : ∀ s a s', Inv s → step s a = some s' → Inv s' ∧ (idle a = false → μ s' < μ s))
    (hs : Inv s)
    (hgoes : ∀ n s', run step s (firstSteps as n) = some s' → ¬ ended s' →
      ∃ s'', step s' (as n) = some s'')
    (hfair : ∃ n, ∀ k, n ≤ k → idle (as k) = false) :
    ∃ n s', run step s (firstSteps as n) = some s' ∧ ended s' := by
  by_contra hnever
  have hnot : ∀ n s', run step s (firstSteps as n) = some s' → ¬ ended s' :=
    fun n s' hr he => hnever ⟨n, s', hr, he⟩
  have hnext : ∀ n s', run step s (firstSteps as n) = some s' →
      ∃ s'', step s' (as n) = some s'' ∧ run step s (firstSteps as (n + 1)) = some s'' := by
    intro n s' hr
    obtain ⟨s'', hs''⟩ := hgoes n s' hr (hnot n s' hr)
    exact ⟨s'', hs'', by rw [run_firstSteps_succ, hr, Option.bind_some, hs'']⟩
  have hdefined : ∀ n, ∃ s', run step s (firstSteps as n) = some s' ∧ Inv s' := by
    intro n
    induction n with
    | zero => exact ⟨s, rfl, hs⟩
    | succ n ih =>
      obtain ⟨s', hr, hinv⟩ := ih
      obtain ⟨s'', hs'', hr'⟩ := hnext n s' hr
      exact ⟨s'', hr', (hstep s' _ s'' hinv hs'').1⟩
  obtain ⟨n, hfair⟩ := hfair
  obtain ⟨s₀, hr₀, hinv₀⟩ := hdefined n
  -- from here on the measure is lowered for ever
  have hlower : ∀ j, ∃ s', run step s (firstSteps as (n + j)) = some s' ∧ Inv s' ∧
      μ s' + j ≤ μ s₀ := by
    intro j
    induction j with
    | zero => exact ⟨s₀, hr₀, hinv₀, Nat.le_refl _⟩
    | succ j ih =>
      obtain ⟨s', hr, hinv, hle⟩ := ih
      obtain ⟨s'', hs'', hr'⟩ := hnext _ s' hr
      obtain ⟨hinv', hlt⟩ := hstep s' _ s'' hinv hs''
      have hdown := hlt (hfair _ (Nat.le_add_right n j))
      exact ⟨s'', hr', hinv', by omega⟩
  obtain ⟨s', -, -, hle⟩ := hlower (μ s₀ + 1)
  omega

end Machine

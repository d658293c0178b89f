import HashMapStorage.Machine.System

/-!
# What runs show

Each step of a run shows some events, perhaps none. A specification says of a
state of its own which event may come next and what state follows. A system
whose steps show what the specification accepts, and keep a relation between
the two states, has only histories that the specification accepts.
-/

namespace Machine

variable {σ α β τ : Type} {step : σ → α → Option σ} {shows : σ → α → σ → List β}
  {next : τ → β → τ → Prop}

/-- The events that the run shows. -/
def history (step : σ → α → Option σ) (shows : σ → α → σ → List β) : σ → List α → List β
  | _, [] => []
  | s, a :: as =>
    match step s a with
    | some s' => shows s a s' ++ history step shows s' as
    | none => []

/-- The specification accepts these events, one after the other. -/
inductive Accepts (next : τ → β → τ → Prop) : τ → List β → τ → Prop
  | nil : Accepts next t [] t
  | cons : next t e t₁ → Accepts next t₁ es t' → Accepts next t (e :: es) t'

namespace Accepts

theorem single (h : next t e t') : Accepts next t [e] t' := .cons h .nil

theorem append (hx : Accepts next t xs t₁) (hy : Accepts next t₁ ys t') :
    Accepts next t (xs ++ ys) t' := by
  induction hx with
  | nil => exact hy
  | cons he _ ih => exact .cons he (ih hy)

theorem split (h : Accepts next t (xs ++ ys) t') :
    ∃ t₁, Accepts next t xs t₁ ∧ Accepts next t₁ ys t' := by
  induction xs generalizing t with
  | nil => exact ⟨t, .nil, h⟩
  | cons e xs ih =>
    cases h with
    | cons he h =>
      obtain ⟨t₁, hx, hy⟩ := ih h
      exact ⟨t₁, .cons he hx, hy⟩

theorem at_event (h : Accepts next t (xs ++ e :: ys) t') :
    ∃ t₁ t₂, Accepts next t xs t₁ ∧ next t₁ e t₂ ∧ Accepts next t₂ ys t' := by
  obtain ⟨t₁, hx, hrest⟩ := h.split
  cases hrest with
  | cons he hy => exact ⟨t₁, _, hx, he, hy⟩

end Accepts

end Machine

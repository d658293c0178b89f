import Mathlib.Tactic.Common

/-!
# Executions that can stop

A computation ends in a value or in a `Fault`: an access or an operation the
language leaves undefined, or a loop that never ends. `Exec` is the exception
monad over faults, with the rules that take a sequence of computations apart.
-/

namespace Machine

inductive Fault
  | nullPointer
  | dangling
  | outOfBounds
  | overflow
  | diverges
  deriving DecidableEq, Repr

abbrev Exec := Except Fault

def Defined (x : Exec α) : Prop := ∃ a, x = .ok a

instance (x : Exec α) : Decidable (Defined x) :=
  match x with
  | .ok a => isTrue ⟨a, rfl⟩
  | .error _ => isFalse fun ⟨_, h⟩ => (nomatch h)

@[simp] theorem ok_bind (a : α) (f : α → Exec β) : (Except.ok a : Exec α) >>= f = f a := rfl

@[simp] theorem error_bind (e : Fault) (f : α → Exec β) :
    (Except.error e : Exec α) >>= f = .error e := rfl

@[simp] theorem pure_eq_ok (a : α) : (pure a : Exec α) = .ok a := rfl

@[simp] theorem throw_eq_error (e : Fault) : (throw e : Exec α) = .error e := rfl

theorem seq_ok {x : Exec α} {f : α → Exec β} (h : x >>= f = .ok b) :
    ∃ a, x = .ok a ∧ f a = .ok b := by
  cases x with
  | ok a => exact ⟨a, rfl, h⟩
  | error e => nomatch h

theorem not_defined {x : Exec α} (h : ¬ Defined x) : ∃ e, x = .error e := by
  cases x with
  | ok a => exact absurd ⟨a, rfl⟩ h
  | error e => exact ⟨e, rfl⟩

theorem toOption_some {x : Exec α} : x.toOption = some a ↔ x = .ok a := by
  cases x with
  | ok b => simp [Except.toOption]
  | error e => simp [Except.toOption]

end Machine

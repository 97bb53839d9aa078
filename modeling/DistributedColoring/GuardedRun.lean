import Mathlib.Logic.Basic

set_option autoImplicit false

/- Finite runs of a partial step function whose steps all meet a guard. The
library knows nothing of the system it is used for: states, actions, the step
function and the guard are parameters. -/
namespace GuardedRun

variable {σ α : Type} {step : σ → α → Option σ} {ok ok' : σ → α → Prop} {s t u : σ}

/-- Some finite list of actions leads from `s` to the indexed state, and every
action meets `ok` in the state it is taken in. -/
inductive Run (step : σ → α → Option σ) (ok : σ → α → Prop) (s : σ) : σ → Prop
  | refl : Run step ok s s
  | tail {t u : σ} {a : α} (before : Run step ok s t) (guard : ok t a)
      (taken : step t a = some u) : Run step ok s u

/-- Every state some list of actions leads to, with no guard on the steps. -/
abbrev Reaches (step : σ → α → Option σ) : σ → σ → Prop :=
  Run step fun _ _ => True

theorem Run.trans (first : Run step ok s t) (second : Run step ok t u) : Run step ok s u := by
  induction second with
  | refl => exact first
  | tail _ guard taken ih => exact ih.tail guard taken

/-- The induction rule: what holds at the start and is kept by every guarded
step holds in every state of a guarded run. -/
theorem Run.invariant {P : σ → Prop} (run : Run step ok s t) (base : P s)
    (kept : ∀ x a y, P x → ok x a → step x a = some y → P y) : P t := by
  induction run with
  | refl => exact base
  | tail _ guard taken ih => exact kept _ _ _ ih guard taken

/-- A guard that follows from an invariant may be added to every step. -/
theorem Run.strengthen {P : σ → Prop} (run : Run step ok s t) (base : P s)
    (kept : ∀ x a y, P x → ok x a → step x a = some y → P y)
    (derived : ∀ x a y, P x → ok x a → step x a = some y → ok' x a) : Run step ok' s t := by
  induction run with
  | refl => exact .refl
  | tail before guard taken ih =>
      exact ih.tail (derived _ _ _ (before.invariant base kept) guard taken) taken

/-- Execution of an explicit list of actions, each checked against the guard. -/
def exec (step : σ → α → Option σ) (ok : σ → α → Prop) [∀ s a, Decidable (ok s a)] :
    σ → List α → Option σ
  | s, [] => some s
  | s, a :: rest => if ok s a then (step s a).bind fun t => exec step ok t rest else none

theorem Run.of_exec [∀ s a, Decidable (ok s a)] (actions : List α)
    (done : exec step ok s actions = some t) : Run step ok s t := by
  induction actions generalizing s with
  | nil =>
      cases done
      exact .refl
  | cons a rest ih =>
      unfold exec at done
      split at done
      · rename_i guard
        obtain ⟨next, taken, remaining⟩ := Option.bind_eq_some_iff.mp done
        exact (Run.refl.tail guard taken).trans (ih remaining)
      · cases done

/-- A state found by executing a list of actions is reached by a run. -/
theorem exists_run_of_exec (step : σ → α → Option σ) (ok : σ → α → Prop)
    [∀ s a, Decidable (ok s a)] (s : σ) (P : σ → Prop) [DecidablePred P] (actions : List α)
    (found : (exec step ok s actions).any (fun t => decide (P t)) = true) :
    ∃ t, Run step ok s t ∧ P t := by
  cases done : exec step ok s actions with
  | none =>
      rw [done] at found
      cases found
  | some t =>
      rw [done] at found
      exact ⟨t, Run.of_exec actions done, of_decide_eq_true found⟩

end GuardedRun

import DistributedColoring.GuardedRun
import Mathlib.Data.Nat.Find
import Mathlib.Order.WellFounded

set_option autoImplicit false

/- Infinite runs of a partial step function, in which nothing may happen for a while.
States, actions and the step function are parameters; what makes a run fair is said
by the systems that use the library. -/
namespace FairTrace

open GuardedRun

variable {σ α β : Type} {step : σ → α → Option σ}

structure Trace (step : σ → α → Option σ) where
  state : ℕ → σ
  act : ℕ → Option α
  moved : ∀ n a, act n = some a → step (state n) a = some (state (n + 1))
  idle : ∀ n, act n = none → state (n + 1) = state n

namespace Trace

variable (trace : Trace step)

/-- What every step keeps holds from the first state on in which it holds. -/
theorem invariant {P : σ → Prop} {n : ℕ} (base : P (trace.state n))
    (kept : ∀ x a y, P x → step x a = some y → P y) {m : ℕ} (later : n ≤ m) :
    P (trace.state m) := by
  induction m, later using Nat.le_induction with
  | base => exact base
  | succ m later ih =>
      cases action : trace.act m with
      | none =>
          rw [trace.idle m action]
          exact ih
      | some a => exact kept _ a _ ih (trace.moved m a action)

theorem reaches {n m : ℕ} (later : n ≤ m) :
    Reaches step (trace.state n) (trace.state m) :=
  trace.invariant (P := Reaches step (trace.state n)) .refl
    (fun _ _ _ before taken => before.tail trivial taken) later

/-- A measure that never grows is constant from some point on. -/
theorem settles (measure : σ → ℕ) {n : ℕ}
    (falls : ∀ m, n ≤ m → measure (trace.state (m + 1)) ≤ measure (trace.state m)) :
    ∃ l, n ≤ l ∧ ∀ m, l ≤ m → measure (trace.state m) = measure (trace.state l) := by
  have below : ∀ l, n ≤ l → ∀ m, l ≤ m → measure (trace.state m) ≤ measure (trace.state l) := by
    intro l after m later
    induction m, later using Nat.le_induction with
    | base => exact Nat.le_refl _
    | succ m later ih => exact (falls m (Nat.le_trans after later)).trans ih
  -- the least value taken after `n` is the last one
  obtain ⟨l, least⟩ : ∃ l, ∀ m, measure (trace.state (n + l)) ≤ measure (trace.state (n + m)) :=
    ⟨Function.argmin fun m => measure (trace.state (n + m)),
      fun m => Function.argmin_le (fun m => measure (trace.state (n + m))) m⟩
  refine ⟨n + l, Nat.le_add_right n l, fun m later => ?_⟩
  have above := least (m - n)
  rw [Nat.add_sub_cancel' (by omega)] at above
  exact Nat.le_antisymm (below _ (Nat.le_add_right n l) m later) above

/-- What only the awaited steps change is the same when the first of them comes. -/
theorem first {P : ℕ → Prop} (seen : σ → β) {n : ℕ} (awaited : ∃ m, n ≤ m ∧ P m)
    (kept : ∀ m, n ≤ m → ¬ P m → seen (trace.state (m + 1)) = seen (trace.state m)) :
    ∃ m, n ≤ m ∧ P m ∧ seen (trace.state m) = seen (trace.state n) := by
  classical
  obtain ⟨later, reached⟩ := Nat.find_spec awaited
  refine ⟨Nat.find awaited, later, reached, ?_⟩
  have before : ∀ m, n ≤ m → m ≤ Nat.find awaited →
      seen (trace.state m) = seen (trace.state n) := by
    intro m after
    induction m, after using Nat.le_induction with
    | base => exact fun _ => rfl
    | succ m after ih =>
        intro bound
        have notYet : ¬ P m := fun now => Nat.find_min awaited bound ⟨after, now⟩
        rw [kept m after notYet]
        exact ih (by omega)
  exact before _ later (Nat.le_refl _)

/-- A run goes on for ever by doing nothing at its end. -/
theorem of_reaches {s t : σ} (run : Reaches step s t) :
    ∃ trace : Trace step, trace.state 0 = s ∧
      ∃ n, ∀ m, n ≤ m → trace.state m = t ∧ trace.act m = none := by
  induction run with
  | refl => exact ⟨⟨fun _ => s, fun _ => none, by simp, by simp⟩, rfl, 0, fun _ _ => ⟨rfl, rfl⟩⟩
  | @tail t u a before guard taken ih =>
      obtain ⟨trace, start, n, stays⟩ := ih
      refine ⟨⟨fun m => if m ≤ n then trace.state m else u,
        fun m => if m = n then some a else trace.act m, ?_, ?_⟩, ?_, n + 1, ?_⟩
      · intro m b action
        split at action
        · rename_i last
          subst last
          rw [if_pos (Nat.le_refl m), if_neg (by omega), (stays m (Nat.le_refl m)).1]
          rw [← Option.some.inj action]
          exact taken
        · have early : m < n := by
            by_contra late
            rw [(stays m (by omega)).2] at action
            cases action
          rw [if_pos (by omega), if_pos (by omega)]
          exact trace.moved m b action
      · intro m action
        split at action
        · cases action
        · by_cases early : m < n
          · rw [if_pos (by omega), if_pos (by omega)]
            exact trace.idle m action
          · rw [if_neg (by omega), if_neg (by omega)]
      · dsimp only
        rw [if_pos (Nat.zero_le n), start]
      · intro m later
        dsimp only
        rw [if_neg (by omega), if_neg (by omega)]
        exact ⟨rfl, (stays m (by omega)).2⟩

end Trace

end FairTrace

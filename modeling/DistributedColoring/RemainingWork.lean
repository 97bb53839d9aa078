import DistributedColoring.CrashFreedom
import Mathlib.Algebra.BigOperators.Group.Finset.Basic
import Mathlib.Algebra.Order.BigOperators.Group.Finset

set_option autoImplicit false

/- How much a client still has to do. Every command brings it closer to the end except
the reads of a spin loop and the repeated SETs of `write_with_wait`, which bring it no
further away. -/
namespace DistributedColoring

open GuardedRun
open ReplicatedLog

variable {k N : ℕ} {D : Deployment k N}

/-- Commands a caller of `write_with_wait` sends from its WAIT on for the neighbour or
the node in hand. -/
def Write.rank : Write → ℕ
  | .flag _ => 12
  | .turn _ => 10
  | .color _ => 4
  | .status => 2
  | .release _ => 2

/-- A repeated SET counts as the WAIT it leads back to. -/
def Pc.rank : Pc → ℕ
  | .getAllNeighbours => 7
  | .checkBoundaryNode => 6
  | .getStatus _ => 14
  | .set w again => if again then w.rank else w.rank + 1
  | .wait w => w.rank
  | .spin _ _ _ _ => 9
  | .getNodeColor _ => 6
  | .finished => 0
  | .crashed => 0

namespace Deployment

/-- A neighbour costs at most nine commands, the release of its lock included. -/
def cost (D : Deployment k N) (v : ℕ) : ℕ := 9 * (D.nbrs v).card + 8

/-- The nodes of a client past index `i`. -/
def ahead (D : Deployment k N) (c : Fin k) (i : ℤ) : ℕ :=
  ∑ j ∈ Finset.range (D.lastNode c - i).toNat, ((D.client c).keyAt (i + 1 + j)).elim 0 D.cost

/-- Neighbours of the node in hand that have not been looked at. -/
def unread (D : Deployment k N) (l : Local) : ℕ :=
  if l.pc = .getAllNeighbours then (D.nbrs l.node).card else l.todo.length

def work (D : Deployment k N) (c : Fin k) (l : Local) : ℕ :=
  if l.pc.Active then D.ahead c l.i + 9 * D.unread l + 2 * l.locks.length + l.pc.rank else 0

def totalWork (D : Deployment k N) (s : State k N) : ℕ := ∑ c, D.work c (s.loc c)

theorem ahead_succ {c : Fin k} {i : ℤ} (bound : i + 1 ≤ D.lastNode c) :
    D.ahead c i = ((D.client c).keyAt (i + 1)).elim 0 D.cost + D.ahead c (i + 1) := by
  have count : (D.lastNode c - i).toNat = (D.lastNode c - (i + 1)).toNat + 1 := by omega
  unfold ahead
  rw [count, Finset.sum_range_succ', Nat.add_comm]
  congr 1
  · rw [Nat.cast_zero, Int.add_zero]
  · refine Finset.sum_congr rfl fun j _ => ?_
    rw [Nat.cast_succ, Int.add_comm (j : ℤ) 1, ← Int.add_assoc]

theorem work_of_active {c : Fin k} {l : Local} (active : l.pc.Active)
    (started : l.pc ≠ .getAllNeighbours) :
    D.work c l = D.ahead c l.i + 9 * l.todo.length + 2 * l.locks.length + l.pc.rank := by
  rw [work, if_pos active, unread, if_neg started]

theorem work_of_inactive {c : Fin k} {l : Local} (inactive : ¬ l.pc.Active) : D.work c l = 0 :=
  if_neg inactive

end Deployment

section Local

variable {c : Fin k} {l l' : Local}

theorem Started.work_le {i : ℤ} (started : Started (D.client c) (i + 1) l') :
    D.work c l' ≤ D.ahead c i := by
  cases started with
  | node v bound key =>
      have split := Deployment.ahead_succ (D := D) bound
      rw [key] at split
      simp only [Deployment.work, Pc.Active, Deployment.unread, Pc.rank, Deployment.cost,
        Option.elim_some] at split ⊢
      simp
      omega
  | crash bound key => simp [Deployment.work, Pc.Active]
  | finish bound => simp [Deployment.work, Pc.Active]

/-- After a node is done, its locks are released one by one and the next node is begun. -/
theorem Released.work_lt (released : Released (D.client c) l l') :
    D.work c l' < D.ahead c l.i + 9 * l.todo.length + 2 * l.locks.length + 2 := by
  cases released with
  | unlock lock rest split =>
      rw [Deployment.work_of_active (by simp [Pc.Active]) (by simp)]
      simp only [split, Pc.rank, Write.rank, List.length_cons, Bool.false_eq_true, if_false]
      omega
  | next l' empty started =>
      have bound := started.work_le
      omega

theorem Resumed.work_lt (resumed : Resumed (D.client c) l l') :
    D.work c l' < D.ahead c l.i + 9 * l.todo.length + 2 * l.locks.length + 6 := by
  cases resumed with
  | choose x empty least =>
      rw [Deployment.work_of_active (by simp [Pc.Active]) (by simp)]
      simp [Pc.rank, Write.rank]
  | inside u rest split range =>
      rw [Deployment.work_of_active (by simp [Pc.Active]) (by simp)]
      simp only [split, Pc.rank, List.length_cons]
      omega
  | outside u rest split range =>
      rw [Deployment.work_of_active (by simp [Pc.Active]) (by simp)]
      simp only [split, Pc.rank, List.length_cons]
      omega

/-- An acknowledged write brings its caller to the next command. -/
theorem written_work_lt {w : Write} (pc : l.pc = .wait w) :
    D.work c ((D.client c).written l w) < D.work c l := by
  have now : D.work c l =
      D.ahead c l.i + 9 * l.todo.length + 2 * l.locks.length + w.rank := by
    rw [Deployment.work_of_active (by simp [pc, Pc.Active]) (by simp [pc]), pc]
    rfl
  rw [now]
  cases w with
  | flag lock =>
      rw [Deployment.work_of_active (by simp [Client.written, Pc.Active])
        (by simp [Client.written])]
      simp [Client.written, Pc.rank, Write.rank]
  | turn lock =>
      rw [Deployment.work_of_active (by simp [Client.written, Pc.Active])
        (by simp [Client.written])]
      simp [Client.written, Pc.rank, Write.rank]
  | color x =>
      rw [Deployment.work_of_active (by simp [Client.written, Pc.Active])
        (by simp [Client.written])]
      simp [Client.written, Pc.rank, Write.rank]
  | status => exact (releaseNext_released (D.client c) l).work_lt
  | release lock => exact (releaseNext_released (D.client c) l).work_lt

/-- A test of the spin loop either leaves the client where it was or brings it on. -/
theorem Spun.work_cases {lock : ClientGraphPetersonLock} {inLoop : Bool}
    {oldFlag oldTurn otherFlag turnVar : Option (Reply ℤ)}
    (spun : Spun l lock otherFlag turnVar l') (pc : l.pc = .spin lock inLoop oldFlag oldTurn) :
    D.work c l' < D.work c l ∨
      D.work c l' = D.work c l ∧ ∃ inLoop f t, l'.pc = .spin lock inLoop f t := by
  have now : D.work c l = D.ahead c l.i + 9 * l.todo.length + 2 * l.locks.length + 9 := by
    rw [Deployment.work_of_active (by simp [pc, Pc.Active]) (by simp [pc]), pc]
    rfl
  rw [now]
  cases spun with
  | wait inLoop =>
      right
      rw [Deployment.work_of_active (by simp [Pc.Active]) (by simp)]
      exact ⟨rfl, _, _, _, rfl⟩
  | retry flag turn flags turns =>
      right
      rw [Deployment.work_of_active (by simp [Pc.Active]) (by simp)]
      exact ⟨rfl, _, _, _, rfl⟩
  | enter flag turn flags turns passed =>
      left
      rw [Deployment.work_of_active (by simp [Pc.Active]) (by simp)]
      simp only [Pc.rank, List.length_append, List.length_singleton]
      omega
  | crash flag turn flags turns failed =>
      left
      rw [Deployment.work_of_inactive (by simp [Pc.Active])]
      omega

end Local

/-- A client stays as far from the end as it was in the spin loop, and where WAIT has
counted too few replicas. -/
inductive Stalled (l l' : Local) : Prop
  | spinning (lock : ClientGraphPetersonLock) (inLoop inLoop' : Bool)
      (f t f' t' : Option (Reply ℤ)) (before : l.pc = .spin lock inLoop f t)
      (after : l'.pc = .spin lock inLoop' f' t')
  | unacknowledged (w : Write) (before : l.pc = .wait w) (after : l'.pc = .set w true)
  | repeated (w : Write) (before : l.pc = .set w true) (after : l'.pc = .wait w)

theorem Quiet.work_cases {s : State k N} {c : Fin k} {move : Move} {l' : Local}
    (quiet : Quiet D s c move l') :
    D.work c l' < D.work c (s.loc c) ∨
      D.work c l' = D.work c (s.loc c) ∧ Stalled (s.loc c) l' := by
  have now : ∀ pc, (s.loc c).pc = pc → pc.Active → pc ≠ .getAllNeighbours →
      D.work c (s.loc c) = D.ahead c (s.loc c).i + 9 * (s.loc c).todo.length +
        2 * (s.loc c).locks.length + pc.rank := by
    rintro pc rfl active started
    exact Deployment.work_of_active active started
  cases quiet with
  | neighbours reply pc members =>
      left
      have size : (sortNeighbours reply).length = (D.nbrs (s.loc c).node).card := by
        rw [← members.2, List.toFinset_card_of_nodup members.1]
        exact List.length_insertionSort (r := (· ≤ ·)) reply
      rw [Deployment.work_of_active (by simp [Pc.Active]) (by simp), Deployment.work,
        if_pos (by simp [pc, Pc.Active]), Deployment.unread, if_pos pc, pc]
      simp only [Pc.rank, size]
      omega
  | boundary reply l' pc resumed =>
      left
      rw [now _ pc (by simp [Pc.Active]) (by simp)]
      exact resumed.work_lt
  | mustLock u pc status =>
      left
      rw [now _ pc (by simp [Pc.Active]) (by simp),
        Deployment.work_of_active (by simp [Pc.Active]) (by simp)]
      simp [Pc.rank, Write.rank]
  | skipLock u pc status =>
      left
      rw [now _ pc (by simp [Pc.Active]) (by simp),
        Deployment.work_of_active (by simp [Pc.Active]) (by simp)]
      simp [Pc.rank]
  | color u l' pc resumed =>
      left
      rw [now _ pc (by simp [Pc.Active]) (by simp)]
      exact resumed.work_lt
  | resend w acks pc =>
      right
      refine ⟨?_, .unacknowledged w pc rfl⟩
      rw [now _ pc (by simp [Pc.Active]) (by simp),
        Deployment.work_of_active (by simp [Pc.Active]) (by simp)]
      simp [Pc.rank]
  | written w acks pc enough bound => exact Or.inl (written_work_lt pc)
  | read lock inLoop r oldFlag oldTurn newFlag newTurn pc answer =>
      refine ((onLockReads_spun (s.loc c) lock inLoop newFlag newTurn).work_cases pc).imp_right ?_
      rintro ⟨same, inLoop', f, t, after⟩
      exact ⟨same, .spinning lock inLoop inLoop' _ _ f t pc after⟩

section Total

variable {s s' : State k N} {a : Action k N}

theorem totalWork_congr (same : s'.loc = s.loc) : D.totalWork s' = D.totalWork s := by
  unfold Deployment.totalWork
  rw [same]

theorem totalWork_put_lt {c : Fin k} {l : Local} (less : D.work c l < D.work c (s.loc c)) :
    D.totalWork (s.put c l) < D.totalWork s := by
  refine Finset.sum_lt_sum (fun d _ => ?_) ⟨c, Finset.mem_univ c, by rw [put_loc_self]; exact less⟩
  by_cases same : d = c
  · subst same
    rw [put_loc_self]
    exact less.le
  · rw [put_loc_other s l same]

theorem totalWork_put_eq {c : Fin k} {l : Local} (same : D.work c l = D.work c (s.loc c)) :
    D.totalWork (s.put c l) = D.totalWork s := by
  refine Finset.sum_congr rfl fun d _ => ?_
  by_cases here : d = c
  · subst here
    rw [put_loc_self, same]
  · rw [put_loc_other s l here]

theorem send_work_cases {c : Fin k} {w : Write} {again : Bool}
    (pc : (s.loc c).pc = .set w again) :
    (again = false ∧ D.work c { s.loc c with pc := .wait w } < D.work c (s.loc c)) ∨
      (again = true ∧ D.work c { s.loc c with pc := .wait w } = D.work c (s.loc c)) := by
  have now : D.work c (s.loc c) = D.ahead c (s.loc c).i + 9 * (s.loc c).todo.length +
      2 * (s.loc c).locks.length + (if again then w.rank else w.rank + 1) := by
    rw [Deployment.work_of_active (by simp [pc, Pc.Active]) (by simp [pc]), pc]
    rfl
  rw [now, Deployment.work_of_active (by simp [Pc.Active]) (by simp)]
  cases again <;> simp [Pc.rank]

/-- A step that does not lessen the work is a replay or leaves its client stalled. -/
theorem StepCase.work_cases (taken : StepCase D s a s') :
    D.totalWork s' < D.totalWork s ∨
      D.totalWork s' = D.totalWork s ∧
        ((∃ t o, a = .deliver t o) ∨
          ∃ c move, a = .client c move ∧ Stalled (s.loc c) (s'.loc c)) := by
  cases taken with
  | quiet c move l' quiet =>
      rcases quiet.work_cases with less | ⟨same, stalled⟩
      · exact Or.inl (totalWork_put_lt less)
      · refine Or.inr ⟨totalWork_put_eq same, Or.inr ⟨c, move, rfl, ?_⟩⟩
        rw [put_loc_self]
        exact stalled
  | send c w again pc =>
      rcases send_work_cases (D := D) pc with ⟨_, less⟩ | ⟨again, same⟩
      · exact Or.inl (totalWork_put_lt (s := s.send c (D.server c) w again) less)
      · subst again
        refine Or.inr ⟨totalWork_put_eq (s := s.send c (D.server c) w true) same,
          Or.inr ⟨c, .set, rfl, ?_⟩⟩
        rw [put_loc_self]
        exact .repeated w pc rfl
  | deliver t o key v front => exact Or.inr ⟨rfl, Or.inl ⟨t, o, rfl⟩⟩

theorem StepCase.work_le (taken : StepCase D s a s') : D.totalWork s' ≤ D.totalWork s := by
  rcases taken.work_cases with less | ⟨same, _⟩
  · exact less.le
  · exact same.le

end Total

end DistributedColoring

import DistributedColoring.ReplicatedLog
import Mathlib.Algebra.BigOperators.Group.Finset.Basic
import Mathlib.Algebra.Order.BigOperators.Group.Finset
import Mathlib.Data.Fintype.Prod

set_option autoImplicit false

/- Finitely many servers can replay all that has been written: every replay leaves one
entry less to replay. -/
namespace ReplicatedLog

namespace Net

variable {S K V : Type} [DecidableEq S] [DecidableEq K]

theorem exists_deliver {n : Net S K V} (wf : n.WellFormed) {t s : S}
    (behind : n.seen t s ≠ (n.log s).length) : ∃ m, n.deliver t s = some m := by
  have room : n.seen t s < (n.log s).length := lt_of_le_of_ne (wf.bounded t s) behind
  refine ⟨n.replay t s (n.log s)[n.seen t s].1 (n.log s)[n.seen t s].2, ?_⟩
  rw [deliver, List.getElem?_eq_getElem room]

variable [Fintype S]

/-- Entries that are still to be replayed, counted once for every receiver. -/
def pending (n : Net S K V) : ℕ :=
  ∑ p : S × S, ((n.log p.2).length - n.seen p.1 p.2)

theorem deliver_pending {n m : Net S K V} {t s : S} (done : n.deliver t s = some m) :
    m.pending < n.pending := by
  obtain ⟨k, v, front, rfl⟩ := deliver_cases done
  have room : n.seen t s < (n.log s).length := by
    by_contra full
    rw [List.drop_eq_nil_of_le (by omega)] at front
    cases front
  have seen : ∀ r o, (n.replay t s k v).seen r o =
      if r = t ∧ o = s then n.seen t s + 1 else n.seen r o := by
    intro r o
    by_cases receiver : r = t <;> by_cases origin : o = s <;> simp [replay, receiver, origin]
  refine Finset.sum_lt_sum (fun p _ => ?_) ⟨(t, s), Finset.mem_univ _, ?_⟩
  · rw [seen]
    split
    · rename_i here
      obtain ⟨receiver, origin⟩ := here
      simp only [replay, receiver, origin]
      omega
    · exact Nat.le_refl _
  · rw [seen, if_pos ⟨rfl, rfl⟩]
    simp only [replay]
    omega

end Net

end ReplicatedLog

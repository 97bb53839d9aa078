import DistributedColoring.Steps

set_option autoImplicit false

/- The local variables of a client at each point of its program. -/
namespace DistributedColoring

open GreedyColoring (IsLeastFree)

variable {k N : ℕ} {D : Deployment k N}

/-- The lock a write is about. -/
def Write.lock? : Write → Option ClientGraphPetersonLock
  | .flag lock => some lock
  | .turn lock => some lock
  | .release lock => some lock
  | .color _ => none
  | .status => none

/-- The neighbour whose lock a write belongs to, while that lock is acquired. -/
def Write.current : Write → List ℕ
  | .flag lock => [lock.nbr]
  | .turn lock => [lock.nbr]
  | .release _ => []
  | .color _ => []
  | .status => []

namespace Pc

def lock? : Pc → Option ClientGraphPetersonLock
  | .set w _ => w.lock?
  | .wait w => w.lock?
  | .spin lock _ _ _ => some lock
  | _ => none

/-- The neighbour in hand in the loop of `read_color_of_neighbors`. -/
def current : Pc → List ℕ
  | .getStatus nbr => [nbr]
  | .set w _ => w.current
  | .wait w => w.current
  | .spin lock _ _ _ => [lock.nbr]
  | .getNodeColor nbr => [nbr]
  | _ => []

/-- Inside `process_node`. -/
def Active (pc : Pc) : Prop := pc ≠ .finished ∧ pc ≠ .crashed

instance (pc : Pc) : Decidable pc.Active :=
  inferInstanceAs (Decidable (_ ∧ _))

end Pc

/-- Neighbours whose colour has been read. -/
def Local.visited (l : Local) : List ℕ := l.colors.map Prod.fst

def Local.neighbourhood (l : Local) : List ℕ := l.visited ++ (l.pc.current ++ l.todo)

structure Shape (D : Deployment k N) (c : Fin k) (l : Local) : Prop where
  low : D.firstNode c ≤ l.i
  high : l.i ≤ D.lastNode c + 1 ∨ l.i = D.firstNode c
  node : l.pc.Active → (D.client c).keyAt l.i = some l.node ∧ l.i ≤ D.lastNode c
  finished : l.pc = .finished → D.keys = [] ∨ D.lastNode c < l.i
  fresh : l.pc = .getAllNeighbours ∨ l.pc = .checkBoundaryNode → l.colors = [] ∧ l.locks = []
  ordered : l.pc.Active → l.pc ≠ .getAllNeighbours → l.neighbourhood.Pairwise (· < ·) ∧
    ∀ u, u ∈ l.neighbourhood ↔ u ∈ D.nbrs l.node
  lock : ∀ L, L ∈ l.locks ∨ l.pc.lock? = some L →
    L.node = l.node ∧ ¬ (D.client c).Internal L.nbr
  lockRead : ∀ L ∈ l.locks, L.nbr ∈ l.visited ∨ l.pc = .getNodeColor L.nbr ∨ l.pc = .crashed
  distinct : (l.pc.lock?.toList ++ l.locks).Nodup
  outside : ∀ u, l.pc = .getStatus u → ¬ (D.client c).Internal u
  chosen : ∀ x, (∃ again, l.pc = .set (.color x) again) ∨ l.pc = .wait (.color x) →
    IsLeastFree {d | d ∈ l.colors.map Prod.snd} 0 x ∧ l.todo = []

theorem Shape.locks_nodup {c : Fin k} {l : Local} (shape : Shape D c l) : l.locks.Nodup :=
  (List.nodup_append.mp shape.distinct).2.1

/-- The lock in hand is not among those already acquired. -/
theorem Shape.lock_notMem {c : Fin k} {l : Local} (shape : Shape D c l)
    (lock : ClientGraphPetersonLock) (here : l.pc.lock? = some lock) : lock ∉ l.locks := by
  have distinct := shape.distinct
  rw [here] at distinct
  exact (List.nodup_cons.mp distinct).1

/-- A neighbour in hand whose colour is still to be read has no lock yet. -/
theorem Shape.fresh_lock {c : Fin k} {l : Local} (shape : Shape D c l) {u : ℕ}
    (pc : l.pc = .getStatus u) : ⟨l.node, u⟩ ∉ l.locks := by
  intro held
  have order := (shape.ordered (by simp [pc, Pc.Active]) (by simp [pc])).1
  rcases shape.lockRead _ held with read | here | crashed
  · have below := (List.pairwise_append.mp order).2.2 u read u (by simp [pc, Pc.current])
    omega
  · rw [pc] at here
    cases here
  · rw [pc] at crashed
    cases crashed

theorem sortNeighbours_spec {reply : List ℕ} {v : ℕ} (members : D.IsMembers v reply) :
    (sortNeighbours reply).Pairwise (· < ·) ∧ ∀ u, u ∈ sortNeighbours reply ↔ u ∈ D.nbrs v := by
  have perm : (sortNeighbours reply).Perm reply := List.perm_insertionSort _ _
  constructor
  · have sorted : (sortNeighbours reply).Pairwise (· ≤ ·) := List.pairwise_insertionSort _ _
    have nodup : (sortNeighbours reply).Nodup := perm.nodup_iff.mpr members.1
    exact (sorted.and nodup).imp fun both => lt_of_le_of_ne both.1 both.2
  · intro u
    rw [perm.mem_iff, ← members.2, List.mem_toFinset]

theorem Started.shape {c : Fin k} {i : ℤ} {l : Local} (started : Started (D.client c) i l)
    (low : D.firstNode c ≤ i) (high : i ≤ D.lastNode c + 1 ∨ i = D.firstNode c) :
    Shape D c l := by
  cases started with
  | node v bound key =>
      exact ⟨low, high, fun _ => ⟨key, bound⟩, by simp, by simp, by simp, by simp [Pc.lock?],
        by simp, by simp [Pc.lock?], by simp, by simp⟩
  | crash bound key =>
      exact ⟨low, high, by simp [Pc.Active], by simp, by simp, by simp [Pc.Active],
        by simp [Pc.lock?], by simp, by simp [Pc.lock?], by simp, by simp⟩
  | finish bound =>
      exact ⟨low, high, by simp [Pc.Active], fun _ => Or.inr bound, by simp, by simp [Pc.Active],
        by simp [Pc.lock?], by simp, by simp [Pc.lock?], by simp, by simp⟩

theorem start_shape (c : Fin k) : Shape D c (D.client c).start := by
  unfold Client.start
  split
  · rename_i none
    exact ⟨le_refl _, Or.inr rfl, by simp [Pc.Active], fun _ => Or.inl none, by simp,
      by simp [Pc.Active], by simp [Pc.lock?], by simp, by simp [Pc.lock?], by simp, by simp⟩
  · exact (processAt_started _ _).shape (le_refl _) (Or.inr rfl)

/-- The state between two neighbours: everything up to `todo` has been read. -/
structure BetweenNeighbours (D : Deployment k N) (c : Fin k) (l : Local) : Prop where
  low : D.firstNode c ≤ l.i
  node : (D.client c).keyAt l.i = some l.node ∧ l.i ≤ D.lastNode c
  ordered : (l.visited ++ l.todo).Pairwise (· < ·) ∧
    ∀ u, u ∈ l.visited ++ l.todo ↔ u ∈ D.nbrs l.node
  lock : ∀ L ∈ l.locks, L.node = l.node ∧ ¬ (D.client c).Internal L.nbr
  lockRead : ∀ L ∈ l.locks, L.nbr ∈ l.visited
  distinct : l.locks.Nodup

theorem Resumed.shape {c : Fin k} {l l' : Local} (resumed : Resumed (D.client c) l l')
    (between : BetweenNeighbours D c l) : Shape D c l' := by
  have high : l.i ≤ D.lastNode c + 1 := by
    have := between.node.2
    omega
  have lock : ∀ L, L ∈ l.locks ∨ (none : Option ClientGraphPetersonLock) = some L →
      L.node = l.node ∧ ¬ (D.client c).Internal L.nbr := by
    intro L mentioned
    rcases mentioned with held | impossible
    · exact between.lock L held
    · cases impossible
  cases resumed with
  | choose x empty least =>
      refine ⟨between.low, Or.inl high, fun _ => between.node, by simp, by simp, fun _ _ => ?_,
        lock, fun L held => Or.inl (between.lockRead L held), between.distinct, by simp, ?_⟩
      · have old := between.ordered
        simp only [empty, List.append_nil] at old
        simpa [Local.neighbourhood, Pc.current, Write.current, empty, Local.visited] using old
      · intro y coloring
        have same : x = y := by simpa using coloring
        subst same
        exact ⟨least, empty⟩
  | inside u rest split range =>
      refine ⟨between.low, Or.inl high, fun _ => between.node, by simp, by simp, fun _ _ => ?_,
        lock, fun L held => Or.inl (between.lockRead L held), between.distinct, by simp, by simp⟩
      have old := between.ordered
      rw [split] at old
      exact old
  | outside u rest split range =>
      refine ⟨between.low, Or.inl high, fun _ => between.node, by simp, by simp, fun _ _ => ?_,
        lock, fun L held => Or.inl (between.lockRead L held), between.distinct, ?_, by simp⟩
      · have old := between.ordered
        rw [split] at old
        exact old
      · intro v same
        cases same
        exact range

theorem Released.shape {c : Fin k} {l l' : Local} (released : Released (D.client c) l l')
    (shape : Shape D c l) (active : l.pc.Active) (current : l.pc.current = [])
    (started : l.pc ≠ .getAllNeighbours) : Shape D c l' := by
  cases released with
  | unlock lock rest split =>
      have inLocks : lock ∈ l.locks := by rw [split]; exact List.mem_cons_self
      have distinct : (lock :: rest).Nodup := by
        rw [← split]
        exact shape.locks_nodup
      have restLocks : ∀ L ∈ rest, L ∈ l.locks := by
        intro L member
        rw [split]
        exact List.mem_cons_of_mem _ member
      refine ⟨shape.low, shape.high, fun _ => shape.node active, by simp, by simp, fun _ _ => ?_,
        ?_, ?_, distinct, by simp, by simp⟩
      · have old := shape.ordered active started
        unfold Local.neighbourhood at old
        rw [current] at old
        exact old
      · intro L mentioned
        rcases mentioned with held | here
        · exact shape.lock L (Or.inl (restLocks L held))
        · simp only [Pc.lock?, Write.lock?, Option.some.injEq] at here
          subst here
          exact shape.lock lock (Or.inl inLocks)
      · intro L held
        rcases shape.lockRead L (restLocks L held) with read | here | crashed
        · exact Or.inl read
        · rw [here] at current
          cases current
        · exact absurd crashed active.2
  | next l' empty started =>
      have bound := (shape.node active).2
      exact started.shape (by have := shape.low; omega) (Or.inl (by omega))

/-- Changing only the program counter, within the handling of one neighbour. -/
theorem Shape.withPc {c : Fin k} {l : Local} (shape : Shape D c l) (active : l.pc.Active)
    (started : l.pc ≠ .getAllNeighbours) {pc : Pc} (live : pc.Active)
    (current : pc.current = l.pc.current)
    (lock : ∀ L, pc.lock? = some L → L.node = l.node ∧ ¬ (D.client c).Internal L.nbr)
    (color : ∀ u, l.pc = .getNodeColor u → pc = .getNodeColor u)
    (first : pc ≠ .getAllNeighbours ∧ pc ≠ .checkBoundaryNode)
    (status : ∀ u, pc = .getStatus u → ¬ (D.client c).Internal u)
    (chosen : ∀ x, (∃ again, pc = .set (.color x) again) ∨ pc = .wait (.color x) →
      (∃ again, l.pc = .set (.color x) again) ∨ l.pc = .wait (.color x))
    (distinct : ∀ L, pc.lock? = some L → L ∉ l.locks) :
    Shape D c { l with pc := pc } := by
  refine ⟨shape.low, shape.high, fun _ => shape.node active, fun same => absurd same live.1, ?_,
    fun _ _ => ?_, ?_, ?_, ?_, status, fun x coloring => shape.chosen x (chosen x coloring)⟩
  · intro same
    exact absurd same (by simp [first.1, first.2])
  · have old := shape.ordered active started
    unfold Local.neighbourhood at old
    rw [← current] at old
    exact old
  · intro L mentioned
    rcases mentioned with held | here
    · exact shape.lock L (Or.inl held)
    · exact lock L here
  · intro L held
    rcases shape.lockRead L held with read | here | crashed
    · exact Or.inl read
    · exact Or.inr (Or.inl (color _ here))
    · exact absurd crashed active.2
  · cases inHand : pc.lock? with
    | none => exact shape.locks_nodup
    | some L => exact List.nodup_cons.mpr ⟨distinct L inHand, shape.locks_nodup⟩

/-- The acknowledged write of a client leads to its next command. -/
theorem Shape.written {c : Fin k} {l : Local} (shape : Shape D c l) {w : Write}
    (pc : l.pc = .wait w) : Shape D c ((D.client c).written l w) := by
  have active : l.pc.Active := by simp [pc, Pc.Active]
  have started : l.pc ≠ .getAllNeighbours := by simp [pc]
  have lock := fun L => shape.lock L
  have notMem := fun L => shape.lock_notMem L
  rw [pc] at lock notMem
  cases w with
  | flag L =>
      have here := lock L (Or.inr rfl)
      have free := notMem L rfl
      apply shape.withPc <;> simp [pc, Pc.Active, Pc.current, Write.current, Pc.lock?,
        Write.lock?, here, free]
  | turn L =>
      have here := lock L (Or.inr rfl)
      have free := notMem L rfl
      apply shape.withPc <;> simp [pc, Pc.Active, Pc.current, Write.current, Pc.lock?, here,
        free]
  | color x =>
      apply shape.withPc <;> simp [pc, Pc.Active, Pc.current, Write.current, Pc.lock?,
        Write.lock?]
  | status =>
      exact (releaseNext_released _ _).shape shape active (by simp [pc, Pc.current,
        Write.current]) started
  | release L =>
      exact (releaseNext_released _ _).shape shape active (by simp [pc, Pc.current,
        Write.current]) started

theorem Spun.shape {c : Fin k} {l l' : Local} {L : ClientGraphPetersonLock}
    {oldFlag oldTurn newFlag newTurn : Option (Reply ℤ)} {inLoop : Bool}
    (spun : Spun l L newFlag newTurn l') (shape : Shape D c l)
    (pc : l.pc = .spin L inLoop oldFlag oldTurn) : Shape D c l' := by
  have here := shape.lock L (Or.inr (by rw [pc]; rfl))
  have free := shape.lock_notMem L (by rw [pc]; rfl)
  have same : ∀ inLoop f t, Shape D c { l with pc := .spin L inLoop f t } := by
    intro inLoop f t
    apply shape.withPc <;> simp [pc, Pc.Active, Pc.current, Pc.lock?, here, free]
  cases spun with
  | wait => exact same _ _ _
  | retry => exact same _ _ _
  | enter =>
      have distinct : (l.locks ++ [L]).Nodup :=
        List.Nodup.append shape.locks_nodup (List.nodup_singleton L) (by simp [free])
      have color : Shape D c { l with pc := .getNodeColor L.nbr } := by
        apply shape.withPc <;> simp [pc, Pc.Active, Pc.current, Pc.lock?]
      refine ⟨color.low, color.high, color.node, color.finished, by simp, color.ordered, ?_, ?_,
        distinct, color.outside, color.chosen⟩
      · intro K mentioned
        rcases mentioned with held | other
        · rcases List.mem_append.mp held with old | new
          · exact shape.lock K (Or.inl old)
          · rw [List.mem_singleton.mp new]
            exact here
        · cases other
      · intro K held
        rcases List.mem_append.mp held with old | new
        · exact color.lockRead K old
        · rw [List.mem_singleton.mp new]
          exact Or.inr (Or.inl rfl)
  | crash =>
      refine ⟨shape.low, shape.high, by simp [Pc.Active], by simp, by simp, by simp [Pc.Active], ?_,
        by simp, shape.locks_nodup, by simp, by simp⟩
      intro K mentioned
      rcases mentioned with held | other
      · exact shape.lock K (Or.inl held)
      · cases other

/-- A client keeps its shape over every step that writes nothing. -/
theorem Quiet.shape {s : State k N} {c : Fin k} {move : Move} {l' : Local}
    (quiet : Quiet D s c move l') (shape : Shape D c (s.loc c)) : Shape D c l' := by
  cases quiet with
  | neighbours reply pc members =>
      have active : (s.loc c).pc.Active := by simp [pc, Pc.Active]
      obtain ⟨colors, locks⟩ := shape.fresh (Or.inl pc)
      refine ⟨shape.low, shape.high, fun _ => shape.node active, by simp, fun _ => ⟨colors, locks⟩,
        fun _ _ => ?_, by simp [locks, Pc.lock?], by simp [locks], by simp [locks, Pc.lock?],
        by simp, by simp⟩
      simpa [Local.neighbourhood, Local.visited, colors, Pc.current] using
        sortNeighbours_spec members
  | boundary reply l' pc resumed =>
      have active : (s.loc c).pc.Active := by simp [pc, Pc.Active]
      obtain ⟨colors, locks⟩ := shape.fresh (Or.inr pc)
      have old := shape.ordered active (by simp [pc])
      unfold Local.neighbourhood at old
      rw [pc] at old
      exact resumed.shape ⟨shape.low, shape.node active, old, by simp [locks], by simp [locks],
        by simp [locks]⟩
  | mustLock u pc status =>
      have outside := shape.outside u pc
      have fresh := shape.fresh_lock pc
      apply shape.withPc <;> simp [pc, Pc.Active, Pc.current, Write.current, Pc.lock?,
        Write.lock?, outside, fresh]
  | skipLock u pc status =>
      apply shape.withPc <;> simp [pc, Pc.Active, Pc.current, Pc.lock?]
  | color u l' pc resumed =>
      have active : (s.loc c).pc.Active := by simp [pc, Pc.Active]
      have old := shape.ordered active (by simp [pc])
      unfold Local.neighbourhood at old
      rw [pc] at old
      apply resumed.shape
      refine ⟨shape.low, shape.node active, ?_, fun L held => shape.lock L (Or.inl held), ?_,
        shape.locks_nodup⟩
      · simpa [Local.visited, Pc.current] using old
      · intro L held
        rcases shape.lockRead L held with read | here | crashed
        · simp only [Local.visited, List.map_append, List.mem_append]
          exact Or.inl read
        · rw [pc] at here
          cases here
          simp [Local.visited]
        · rw [pc] at crashed
          cases crashed
  | resend w acks pc =>
      have active : (s.loc c).pc.Active := by simp [pc, Pc.Active]
      have lock := fun L => shape.lock L
      have notMem := fun L => shape.lock_notMem L
      rw [pc] at lock notMem
      exact shape.withPc active (by simp [pc]) (by simp [Pc.Active]) (by rw [pc]; rfl)
        (fun L mentioned => lock L (Or.inr mentioned)) (by simp [pc]) (by simp) (by simp)
        (by simp [pc]) notMem
  | written w acks pc enough bound => exact shape.written pc
  | read L inLoop r oldFlag oldTurn newFlag newTurn pc answer =>
      exact (onLockReads_spun (s.loc c) L inLoop newFlag newTurn).shape shape pc

theorem shape_step {s s' : State k N} {a : Action k N} (taken : StepCase D s a s')
    (shape : ∀ c, Shape D c (s.loc c)) : ∀ c, Shape D c (s'.loc c) := by
  intro d
  cases taken with
  | quiet c move l' quiet =>
      by_cases same : d = c
      · subst same
        rw [put_loc_self]
        exact quiet.shape (shape d)
      · rw [put_loc_other s l' same]
        exact shape d
  | send c w again pc =>
      by_cases same : d = c
      · subst same
        rw [put_loc_self]
        have lock := fun L => (shape d).lock L
        have notMem := fun L => (shape d).lock_notMem L
        rw [pc] at lock notMem
        exact (shape d).withPc (by simp [pc, Pc.Active]) (by simp [pc]) (by simp [Pc.Active])
          (by rw [pc]; rfl) (fun L mentioned => lock L (Or.inr mentioned)) (by simp [pc])
          (by simp) (by simp) (by simp [pc]) notMem
      · rw [put_loc_other _ _ same]
        exact shape d
  | deliver t o key v front => exact shape d

end DistributedColoring

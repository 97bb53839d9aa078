import DistributedColoring.DeadlockFreedom

set_option autoImplicit false

/- The two places where a client can crash: `keys[i]` outside the array, and the turn
of a lock read before anyone has set it. The second one never happens. -/
namespace DistributedColoring

variable {k N : ℕ} {D : Deployment k N}

/-- Every index of the loop of `main` is one of `keys`. -/
def Deployment.InKeys (D : Deployment k N) (c : Fin k) : Prop :=
  ∀ i, D.firstNode c ≤ i → i ≤ D.lastNode c → (D.client c).keyAt i ≠ none

theorem Started.running {c : Fin k} {i : ℤ} {l : Local} (started : Started (D.client c) i l)
    (inside : D.InKeys c) (low : D.firstNode c ≤ i) : l.pc ≠ .crashed := by
  cases started with
  | node v bound key => simp
  | crash bound key => exact absurd key (inside i low bound)
  | finish bound => simp

theorem Released.running {c : Fin k} {l l' : Local} (released : Released (D.client c) l l')
    (inside : D.InKeys c) (low : D.firstNode c ≤ l.i) : l'.pc ≠ .crashed := by
  cases released with
  | unlock lock rest split => simp
  | next l' empty started => exact started.running inside (by omega)

theorem Resumed.running {C : Client} {l l' : Local} (resumed : Resumed C l l') :
    l'.pc ≠ .crashed := by
  cases resumed <;> simp

theorem Spun.running {l l' : Local} {lock : ClientGraphPetersonLock} {inLoop : Bool}
    {otherFlag turnVar : Option (Reply ℤ)} (spun : Spun l lock otherFlag turnVar l')
    (answered : (Pc.spin lock inLoop otherFlag turnVar).Answered) : l'.pc ≠ .crashed := by
  obtain ⟨known, valued⟩ := answered lock inLoop otherFlag turnVar rfl
  cases spun with
  | wait inLoop => simp
  | retry flag turn flags turns => simp
  | enter flag turn flags turns passed => simp
  | crash flag turn flags turns failed =>
      obtain ⟨x, rfl⟩ := valued turn turns
      exact absurd failed (mustWait_ne_none (known flag flags) x _)

theorem written_running {c : Fin k} {l : Local} (inside : D.InKeys c) (low : D.firstNode c ≤ l.i)
    (w : Write) : ((D.client c).written l w).pc ≠ .crashed := by
  cases w with
  | flag lock => simp [Client.written]
  | turn lock => simp [Client.written]
  | color value => simp [Client.written]
  | status => exact (releaseNext_released _ l).running inside low
  | release lock => exact (releaseNext_released _ l).running inside low

theorem Quiet.running {s : State k N} {c : Fin k} {move : Move} {l' : Local}
    (quiet : Quiet D s c move l') (turns : TurnsAnnounced D s) (inside : D.InKeys c)
    (low : D.firstNode c ≤ (s.loc c).i) : l'.pc ≠ .crashed := by
  cases quiet with
  | neighbours reply pc members => simp
  | boundary reply l' pc resumed => exact resumed.running
  | mustLock u pc status => simp
  | skipLock u pc status => simp
  | color u l' pc resumed => exact resumed.running
  | resend w acks pc => simp
  | written w acks pc enough bound => exact written_running inside low w
  | read lock inLoop r oldFlag oldTurn newFlag newTurn pc answer =>
      have answered := turns.answered c
      have stored := turns.stored c lock
      rw [pc] at answered stored
      exact (onLockReads_spun (s.loc c) lock inLoop newFlag newTurn).running
        (answer.answered answered (stored (.inr ⟨inLoop, oldFlag, oldTurn, rfl⟩)))

theorem StepCase.running {s s' : State k N} {a : Action k N} (taken : StepCase D s a s')
    (turns : TurnsAnnounced D s) (shape : ∀ c, Shape D c (s.loc c)) (inside : ∀ c, D.InKeys c)
    (running : ∀ c, (s.loc c).pc ≠ .crashed) (d : Fin k) : (s'.loc d).pc ≠ .crashed := by
  cases taken with
  | quiet c move l' quiet =>
      by_cases same : d = c
      · subst same
        rw [put_loc_self]
        exact quiet.running turns (inside d) (shape d).low
      · rw [put_loc_other s l' same]
        exact running d
  | send c w again pc =>
      by_cases same : d = c
      · subst same
        rw [put_loc_self]
        simp
      · rw [put_loc_other _ _ same]
        exact running d
  | deliver t o key v front => exact running d

/-- A client whose indices are all in `keys` never crashes, whatever the other clients do. -/
theorem never_crashed (inside : ∀ c, D.InKeys c) {store : Key → Option ℤ} {s : State k N}
    (run : GuardedRun.Reaches D.step (D.start store) s) (c : Fin k) : (s.loc c).pc ≠ .crashed := by
  have start : ∀ c, ((D.start store).loc c).pc ≠ .crashed := by
    intro c
    show (D.client c).start.pc ≠ .crashed
    unfold Client.start
    split
    · simp
    · exact (processAt_started _ _).running (inside c) le_rfl
  have held := run.invariant (P := fun s => TurnsAnnounced D s ∧ (∀ c, Shape D c (s.loc c)) ∧
      ∀ c, (s.loc c).pc ≠ .crashed)
    ⟨start_turns store, fun c => start_shape c, start⟩ ?_
  · exact held.2.2 c
  · rintro s a s' ⟨turns, shape, running⟩ _ taken
    have step := step_cases taken
    exact ⟨turns.step step, shape_step step shape, step.running turns shape inside running⟩

end DistributedColoring

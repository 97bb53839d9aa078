import DistributedColoring.LogDelivery
import DistributedColoring.RemainingWork

set_option autoImplicit false

/- From every state a run can be in, all clients can still be brought to the end of their
ranges: replay what is in flight, and let a client go on that nobody keeps waiting. -/
namespace DistributedColoring

open GuardedRun
open ReplicatedLog

variable {k N : ℕ} {D : Deployment k N}

/-- Conditions on ranges and keys under which clients neither collide nor crash. -/
structure Deployment.Sane (D : Deployment k N) : Prop where
  valid : D.Valid
  loops : ∀ c v, D.Owns c v → v ∈ D.nbrs v → (D.client c).Internal v
  inside : ∀ c, D.InKeys c

/-- A test of the spin loop with both replies is decided at once. -/
def Pc.Open (pc : Pc) : Prop :=
  ∀ L inLoop otherFlag turnVar, pc = .spin L inLoop otherFlag turnVar →
    otherFlag = none ∨ turnVar = none

theorem onLockReads_open (l : Local) (lock : ClientGraphPetersonLock) (inLoop : Bool)
    (otherFlag turnVar : Option (Reply ℤ)) :
    (Client.onLockReads l lock inLoop otherFlag turnVar).pc.Open := by
  intro L inLoop' f t same
  unfold Client.onLockReads at same
  split at same
  · split at same
    · cases same
      exact Or.inl rfl
    · cases same
    · cases same
  · rename_i undecided
    cases same
    cases otherFlag with
    | none => exact Or.inl rfl
    | some flag =>
        cases turnVar with
        | none => exact Or.inr rfl
        | some turn => exact (undecided flag turn rfl rfl).elim

theorem Started.open {C : Client} {i : ℤ} {l : Local} (started : Started C i l) : l.pc.Open := by
  cases started <;> simp [Pc.Open]

theorem Released.open {C : Client} {l l' : Local} (released : Released C l l') : l'.pc.Open := by
  cases released with
  | unlock lock rest split => simp [Pc.Open]
  | next l' empty started => exact started.open

theorem Resumed.open {C : Client} {l l' : Local} (resumed : Resumed C l l') : l'.pc.Open := by
  cases resumed <;> simp [Pc.Open]

theorem Quiet.open {s : State k N} {c : Fin k} {move : Move} {l' : Local}
    (quiet : Quiet D s c move l') : l'.pc.Open := by
  cases quiet with
  | neighbours reply pc members => simp [Pc.Open]
  | boundary reply l' pc resumed => exact resumed.open
  | mustLock u pc status => simp [Pc.Open]
  | skipLock u pc status => simp [Pc.Open]
  | color u l' pc resumed => exact resumed.open
  | resend w acks pc => simp [Pc.Open]
  | written w acks pc enough bound =>
      cases w with
      | flag lock => simp [Client.written, Pc.Open]
      | turn lock => simp [Client.written, Pc.Open]
      | color x => simp [Client.written, Pc.Open]
      | status => exact (releaseNext_released _ _).open
      | release lock => exact (releaseNext_released _ _).open
  | read lock inLoop r oldFlag oldTurn newFlag newTurn pc answer =>
      exact onLockReads_open _ _ _ _ _

/-- What the ways on from a state of a run depend on. -/
structure Live (D : Deployment k N) (s : State k N) : Prop where
  orderly : Orderly D s
  undecided : ∀ c, (s.loc c).pc.Open
  marked : ∀ c, s.mark c ≤ (s.net.log (D.server c)).length
  running : ∀ c, (s.loc c).pc ≠ .crashed

theorem start_live (sane : D.Sane) {store : Key → Option ℤ}
    (lowered : ∀ ids v, store (.flag ids v) ≠ some 1) : Live D (D.start store) where
  orderly := start_orderly sane.valid lowered
  undecided := by
    intro c
    show (D.client c).start.pc.Open
    unfold Client.start
    split
    · simp [Pc.Open]
    · exact (processAt_started _ _).open
  marked := fun c => Nat.zero_le _
  running := fun c => never_crashed sane.inside .refl c

section Step

variable {s s' : State k N} {a : Action k N}

theorem Live.step (live : Live D s) (sane : D.Sane) (taken : StepCase D s a s') : Live D s' := by
  refine ⟨live.orderly.step sane.valid taken, ?_, ?_,
    taken.running live.orderly.turns live.orderly.sound.shape sane.inside live.running⟩
  · intro c
    cases taken with
    | quiet d move l' quiet =>
        by_cases same : c = d
        · subst same
          rw [put_loc_self]
          exact quiet.open
        · rw [put_loc_other s l' same]
          exact live.undecided c
    | send d w again pc =>
        by_cases same : c = d
        · subst same
          rw [put_loc_self]
          simp [Pc.Open]
        · rw [put_loc_other _ _ same]
          exact live.undecided c
    | deliver t o key v front => exact live.undecided c
  · intro c
    have old := live.marked c
    cases taken with
    | quiet d move l' quiet => exact old
    | send d w again pc =>
        rw [put_mark, put_net, send_net]
        by_cases same : c = d
        · subst same
          simp [State.send, Net.write_log_self]
        · by_cases server : D.server c = D.server d
          · rw [server] at old ⊢
            simp only [State.send, Function.update_of_ne same, Net.write_log_self,
              List.length_append]
            omega
          · rw [Net.write_log_other _ _ _ server]
            simpa [State.send, same] using old
    | deliver t o key v front => exact old

theorem Live.run (live : Live D s) (sane : D.Sane) (run : Reaches D.step s s') : Live D s' :=
  run.invariant live fun _ _ _ live _ taken => live.step sane (step_cases taken)

/-- Everything in flight can be replayed without a step of a client. -/
theorem exists_delivered (wf : s.net.WellFormed) :
    ∃ s', Reaches D.step s s' ∧ s'.loc = s.loc ∧
      ∀ t o, s'.net.seen t o = (s'.net.log o).length := by
  induction left : s.net.pending using Nat.strongRecOn generalizing s with
  | ind left ih =>
      by_cases delivered : ∀ t o, s.net.seen t o = (s.net.log o).length
      · exact ⟨s, .refl, rfl, delivered⟩
      · push Not at delivered
        obtain ⟨t, o, behind⟩ := delivered
        obtain ⟨net, done⟩ := Net.exists_deliver wf behind
        have taken : D.step s (.deliver t o) = some { s with net } := by
          simp only [Deployment.step, done, Option.map_some]
        have less := Net.deliver_pending done
        obtain ⟨key, v, front, replayed⟩ := Net.deliver_cases done
        have wf' : net.WellFormed := replayed ▸ Net.replay_wellFormed wf front
        obtain ⟨s', run, same, delivered⟩ := ih net.pending (by omega) (s := { s with net }) wf' rfl
        exact ⟨s', (Run.refl.tail trivial taken).trans run, same, delivered⟩

/-- Once everything is replayed, all the other servers count. -/
theorem Live.caughtUp (live : Live D s) (delivered : ∀ t o, s.net.seen t o = (s.net.log o).length)
    (c : Fin k) : s.caughtUp c (D.server c) = N - 1 := by
  have all : ((List.finRange N).filter fun t => t ≠ D.server c ∧
      s.mark c ≤ s.net.seen t (D.server c)) = (List.finRange N).erase (D.server c) := by
    rw [(List.nodup_finRange N).erase_eq_filter]
    apply List.filter_congr
    intro t _
    rw [delivered]
    simp [live.marked c, bne, beq_eq_decide]
  rw [State.caughtUp, all, List.length_erase_of_mem (List.mem_finRange _), List.length_finRange]

/-- Somebody waits for nobody as long as not all are finished. -/
theorem Live.exists_free (live : Live D s) (sane : D.Sane)
    (delivered : ∀ t o, s.net.seen t o = (s.net.log o).length) {c : Fin k}
    (unfinished : (s.loc c).pc ≠ .finished) : ∃ d, (s.loc d).pc.Active ∧ ¬ Blocked D s d := by
  have quiet : ∀ t key, ¬ s.net.InFlight t key := by
    intro t key ⟨o, v, member⟩
    rw [delivered t o, List.drop_length] at member
    cases member
  by_contra stuck
  push Not at stuck
  -- the client with the highest node in hand would wait for a higher one
  obtain ⟨top, member, highest⟩ := Finset.exists_max_image
    (Finset.univ.filter fun d => (s.loc d).pc.Active) (fun d => (s.loc d).node)
    ⟨c, Finset.mem_filter.mpr ⟨Finset.mem_univ c, unfinished, live.running c⟩⟩
  obtain ⟨e, active, higher⟩ := live.orderly.above quiet sane.loops
    (stuck top (Finset.mem_filter.mp member).2) stuck
  have bound := highest e (Finset.mem_filter.mpr ⟨Finset.mem_univ e, active⟩)
  omega

theorem lt_of_not_stalled {c : Fin k} {move : Move}
    (taken : D.step s (.client c move) = some s') (moved : ¬ Stalled (s.loc c) (s'.loc c)) :
    D.totalWork s' < D.totalWork s := by
  rcases (step_cases taken).work_cases with less | ⟨_, ⟨t, o, other⟩ | ⟨d, _, same, stalled⟩⟩
  · exact less
  · cases other
  · cases same
    exact absurd stalled moved

/-- A client that neither writes nor spins can go on, and does not stall. -/
theorem exists_read {c : Fin k} (active : (s.loc c).pc.Active)
    (writes : ∀ w again, (s.loc c).pc ≠ .set w again) (waits : ∀ w, (s.loc c).pc ≠ .wait w)
    (spins : ∀ L inLoop f t, (s.loc c).pc ≠ .spin L inLoop f t) :
    ∃ s', Reaches D.step s s' ∧ D.totalWork s' < D.totalWork s := by
  have members : D.IsMembers (s.loc c).node (D.nbrs (s.loc c).node).toList :=
    ⟨Finset.nodup_toList _, Finset.toList_toFinset _⟩
  have enabled : ∃ move, (D.step s (.client c move)).isSome := by
    cases pc : (s.loc c).pc with
    | getAllNeighbours =>
        refine ⟨.smembers (D.nbrs (s.loc c).node).toList, ?_⟩
        simp only [Deployment.step, Deployment.clientStep, Deployment.clientMove, pc, members,
          if_true, Option.isSome_some]
    | checkBoundaryNode =>
        refine ⟨.smembers (D.nbrs (s.loc c).node).toList, ?_⟩
        simp only [Deployment.step, Deployment.clientStep, Deployment.clientMove, pc, members,
          if_true, Option.isSome_some]
    | getStatus u =>
        refine ⟨.get, ?_⟩
        simp only [Deployment.step, Deployment.clientStep, Deployment.clientMove, pc,
          Option.isSome_some]
    | getNodeColor u =>
        refine ⟨.get, ?_⟩
        simp only [Deployment.step, Deployment.clientStep, Deployment.clientMove, pc,
          Option.isSome_some]
    | set w again => exact absurd pc (writes w again)
    | wait w => exact absurd pc (waits w)
    | spin L inLoop f t => exact absurd pc (spins L inLoop f t)
    | finished => exact absurd pc active.1
    | crashed => exact absurd pc active.2
  obtain ⟨move, some_step⟩ := enabled
  obtain ⟨s', taken⟩ := Option.isSome_iff_exists.mp some_step
  refine ⟨s', Run.refl.tail trivial taken, lt_of_not_stalled taken ?_⟩
  intro stalled
  cases stalled with
  | spinning L inLoop _ f t _ _ before _ => exact spins L inLoop f t before
  | unacknowledged w before _ => exact waits w before
  | repeated w before _ => exact writes w true before

theorem step_wait {c : Fin k} {w : Write} {acks : ℕ} (pc : (s.loc c).pc = .wait w)
    (enough : D.required ≤ acks) (bound : acks ≤ D.plain + s.caughtUp c (D.server c)) :
    D.step s (.client c (.wait acks)) = some (s.put c ((D.client c).written (s.loc c) w)) := by
  have acked : ¬ acks < (D.client c).required := Nat.not_lt.mpr enough
  simp only [Deployment.step, Deployment.clientStep, Deployment.clientMove, pc, bound, if_true,
    Client.onWait, acknowledgedReplicas, acked, if_false]

/-- A WAIT that counts enough replicas ends the call of `write_with_wait`. -/
theorem step_wait_cases {c : Fin k} {acks : ℕ}
    (taken : D.step s (.client c (.wait acks)) = some s') (enough : D.required ≤ acks) :
    ∃ w, (s.loc c).pc = .wait w ∧ s' = s.put c ((D.client c).written (s.loc c) w) := by
  have waiting : ∃ w, (s.loc c).pc = .wait w := by
    cases step_cases taken with
    | quiet _ _ l' quiet =>
        cases quiet with
        | resend w acks pc => exact ⟨w, pc⟩
        | written w acks pc enough bound => exact ⟨w, pc⟩
  obtain ⟨w, pc⟩ := waiting
  refine ⟨w, pc, ?_⟩
  by_cases bound : acks ≤ D.plain + s.caughtUp c (D.server c)
  · rw [step_wait pc enough bound] at taken
    exact (Option.some.inj taken).symm
  · simp only [Deployment.step, Deployment.clientStep, Deployment.clientMove, pc, bound,
      if_false] at taken
    cases taken

/-- With everything replayed, a WAIT counts enough replicas. -/
theorem Live.exists_acknowledged (live : Live D s)
    (delivered : ∀ t o, s.net.seen t o = (s.net.log o).length)
    (replicas : D.required ≤ D.plain + (N - 1)) {c : Fin k} {w : Write}
    (pc : (s.loc c).pc = .wait w) :
    ∃ s', Reaches D.step s s' ∧ D.totalWork s' < D.totalWork s := by
  have bound : D.required ≤ D.plain + s.caughtUp c (D.server c) := by
    rw [live.caughtUp delivered c]
    exact replicas
  exact ⟨_, Run.refl.tail trivial (step_wait pc (Nat.le_refl _) bound),
    totalWork_put_lt (written_work_lt pc)⟩

theorem Live.exists_sent (live : Live D s) (sane : D.Sane)
    (replicas : D.required ≤ D.plain + (N - 1)) {c : Fin k} {w : Write} {again : Bool}
    (pc : (s.loc c).pc = .set w again) :
    ∃ s', Reaches D.step s s' ∧ D.totalWork s' < D.totalWork s := by
  have taken : D.step s (.client c .set) = some ((s.send c (D.server c) w again).put c
      { s.loc c with pc := .wait w }) := by
    simp only [Deployment.step, Deployment.clientStep, Deployment.clientMove, pc, Client.onSet]
  have sent := live.step sane (step_cases taken)
  have noMore := (step_cases taken).work_le
  obtain ⟨s₁, run, same, delivered⟩ := exists_delivered (D := D) sent.orderly.sound.wf
  have waits : (s₁.loc c).pc = .wait w := by rw [same, put_loc_self]
  obtain ⟨s₂, onward, less⟩ := (sent.run sane run).exists_acknowledged delivered replicas waits
  refine ⟨s₂, ((Run.refl.tail trivial taken).trans run).trans onward, ?_⟩
  exact (less.trans_eq (totalWork_congr same)).trans_le noMore

/-- Fresh copies of the flag and the turn let a client pass that is not blocked. -/
theorem Live.free_test (live : Live D s) {c : Fin k} {L : ClientGraphPetersonLock}
    {inLoop : Bool} {f t : Option (Reply ℤ)} (pc : (s.loc c).pc = .spin L inLoop f t)
    (free : ¬ Blocked D s c) :
    mustWait (s.get (D.server c) L.lockKey2) (s.get (D.server c) L.turnKey) L.nodeName =
      some false := by
  have announced : (s.loc c).pc.Announced L := by
    rw [pc]
    exact Or.inr ⟨_, _, _, rfl⟩
  obtain ⟨turn, held⟩ := Option.ne_none_iff_exists'.mp (live.orderly.stored c L announced)
  unfold State.get
  rw [held]
  cases up : s.net.store (D.server c) L.lockKey2 with
  | none => rfl
  | some flag =>
      by_cases raised : flag = 1
      · have other : turn ≠ L.nodeName := by
          rintro rfl
          exact free ⟨L, inLoop, f, t, pc, raised ▸ up, held⟩
        simp [Reply.stored, mustWait, raised, turnIsMine, other]
      · simp [Reply.stored, mustWait, raised]

/-- The second GET of a test decides it. -/
theorem step_second_read {c : Fin k} {L : ClientGraphPetersonLock} {inLoop : Bool}
    {f t : Option (Reply ℤ)} (pc : (s.loc c).pc = .spin L inLoop f t)
    (undecided : f = none ∨ t = none) (one : f ≠ none ∨ t ≠ none) :
    ∃ read, D.step s (.client c (.lockGet read)) = some (s.put c (Client.onLockReads (s.loc c) L
      inLoop (some (f.getD (s.get (D.server c) L.lockKey2)))
      (some (t.getD (s.get (D.server c) L.turnKey))))) := by
  cases f with
  | none =>
      cases t with
      | none => simp at one
      | some turn =>
          refine ⟨.otherFlag, ?_⟩
          simp [Deployment.step, Deployment.clientStep, Deployment.clientMove, pc]
  | some flag =>
      cases t with
      | none =>
          refine ⟨.turnVar, ?_⟩
          simp [Deployment.step, Deployment.clientStep, Deployment.clientMove, pc]
      | some turn => simp at undecided

/-- The first GET of a test holds the copy of its server. -/
theorem step_first_read {c : Fin k} {L : ClientGraphPetersonLock} {inLoop : Bool}
    (pc : (s.loc c).pc = .spin L inLoop none none) {read : LockRead}
    (first : D.order inLoop read = true) :
    ∃ f t, (f = none ∨ t = none) ∧ (f ≠ none ∨ t ≠ none) ∧
      f.getD (s.get (D.server c) L.lockKey2) = s.get (D.server c) L.lockKey2 ∧
      t.getD (s.get (D.server c) L.turnKey) = s.get (D.server c) L.turnKey ∧
      D.step s (.client c (.lockGet read)) =
        some (s.put c { s.loc c with pc := .spin L inLoop f t }) := by
  cases read with
  | otherFlag =>
      refine ⟨some (s.get (D.server c) L.lockKey2), none, by simp, by simp, rfl, rfl, ?_⟩
      simp [Deployment.step, Deployment.clientStep, Deployment.clientMove, pc, first,
        Client.onLockReads]
  | turnVar =>
      refine ⟨none, some (s.get (D.server c) L.turnKey), by simp, by simp, rfl, rfl, ?_⟩
      simp [Deployment.step, Deployment.clientStep, Deployment.clientMove, pc, first,
        Client.onLockReads]

/-- Leaving the spin loop brings a client on. -/
theorem lt_of_unspun {c : Fin k} {move : Move} {l : Local} {L : ClientGraphPetersonLock}
    {inLoop : Bool} {f t : Option (Reply ℤ)} (pc : (s.loc c).pc = .spin L inLoop f t)
    (taken : D.step s (.client c move) = some (s.put c l))
    (left : ∀ inLoop f t, l.pc ≠ .spin L inLoop f t) : D.totalWork (s.put c l) < D.totalWork s := by
  apply lt_of_not_stalled taken
  rw [put_loc_self]
  intro stalled
  cases stalled with
  | spinning K _ inLoop' _ _ f' t' before after =>
      rw [pc] at before
      cases before
      exact left inLoop' f' t' after
  | unacknowledged w before after =>
      rw [pc] at before
      cases before
  | repeated w before after =>
      rw [pc] at before
      cases before

/-- A new test of the spin loop is passed by a client that is not blocked. -/
theorem Live.exists_passed (live : Live D s) {c : Fin k} {L : ClientGraphPetersonLock}
    {inLoop : Bool} (pc : (s.loc c).pc = .spin L inLoop none none) (free : ¬ Blocked D s c)
    {read : LockRead} (first : D.order inLoop read = true) :
    ∃ s', Reaches D.step s s' ∧ D.totalWork s' < D.totalWork s := by
  have passes := live.free_test pc free
  obtain ⟨f, t, undecided, one, freshFlag, freshTurn, begun⟩ := step_first_read (D := D) pc first
  have noMore := (step_cases begun).work_le
  have half : ((s.put c { s.loc c with pc := .spin L inLoop f t }).loc c).pc =
      .spin L inLoop f t := by
    rw [put_loc_self]
  obtain ⟨read, decided⟩ := step_second_read (D := D) half undecided one
  have less := lt_of_unspun half decided (by
    intro inLoop' f' t'
    change (Client.onLockReads _ L inLoop (some (f.getD (s.get (D.server c) L.lockKey2)))
      (some (t.getD (s.get (D.server c) L.turnKey)))).pc ≠ _
    rw [freshFlag, freshTurn]
    simp only [Client.onLockReads, passes]
    simp)
  exact ⟨_, (Run.refl.tail trivial begun).tail trivial decided, less.trans_le noMore⟩

/-- A client that is not blocked passes with the test in hand or with the next one. -/
theorem Live.exists_unspun (live : Live D s) (order : ∀ inLoop, ∃ read, D.order inLoop read = true)
    (sane : D.Sane) {c : Fin k} {L : ClientGraphPetersonLock} {inLoop : Bool}
    {f t : Option (Reply ℤ)} (pc : (s.loc c).pc = .spin L inLoop f t)
    (free : ¬ Blocked D s c) : ∃ s', Reaches D.step s s' ∧ D.totalWork s' < D.totalWork s := by
  have undecided := live.undecided c L inLoop f t pc
  by_cases unread : f = none ∧ t = none
  · obtain ⟨rfl, rfl⟩ := unread
    obtain ⟨read, first⟩ := order inLoop
    exact live.exists_passed pc free first
  · obtain ⟨read, taken⟩ := step_second_read (D := D) pc undecided (by tauto)
    have noMore := (step_cases taken).work_le
    have live' := live.step sane (step_cases taken)
    have onward : Reaches D.step s _ := Run.refl.tail trivial taken
    cases test : mustWait (f.getD (s.get (D.server c) L.lockKey2))
        (t.getD (s.get (D.server c) L.turnKey)) L.nodeName with
    | none =>
        refine ⟨_, onward, lt_of_unspun pc taken ?_⟩
        simp only [Client.onLockReads, test]
        simp
    | some waits =>
        cases waits with
        | false =>
            refine ⟨_, onward, lt_of_unspun pc taken ?_⟩
            simp only [Client.onLockReads, test]
            simp
        | true =>
            -- old replies keep it in the loop once more
            simp only [Client.onLockReads, test] at taken live' noMore onward
            obtain ⟨read', first⟩ := order true
            have again : ((s.put c { s.loc c with pc := .spin L true none none }).loc c).pc =
                .spin L true none none := by
              rw [put_loc_self]
            have free' : ¬ Blocked D (s.put c { s.loc c with pc := .spin L true none none }) c := by
              rintro ⟨K, _, _, _, spins, up, turn⟩
              rw [again] at spins
              cases spins
              exact free ⟨L, inLoop, f, t, pc, up, turn⟩
            obtain ⟨s', run, less⟩ := live'.exists_passed again free' first
            exact ⟨s', onward.trans run, less.trans_le noMore⟩

theorem Live.exists_advance (live : Live D s) (sane : D.Sane)
    (order : ∀ inLoop, ∃ read, D.order inLoop read = true)
    (replicas : D.required ≤ D.plain + (N - 1))
    (delivered : ∀ t o, s.net.seen t o = (s.net.log o).length) {c : Fin k}
    (active : (s.loc c).pc.Active) (free : ¬ Blocked D s c) :
    ∃ s', Reaches D.step s s' ∧ D.totalWork s' < D.totalWork s := by
  cases pc : (s.loc c).pc with
  | set w again => exact live.exists_sent sane replicas pc
  | wait w => exact live.exists_acknowledged delivered replicas pc
  | spin L inLoop f t => exact live.exists_unspun order sane pc free
  | _ => exact exists_read active (by simp [pc]) (by simp [pc]) (by simp [pc])

theorem Live.exists_finished (live : Live D s) (sane : D.Sane)
    (order : ∀ inLoop, ∃ read, D.order inLoop read = true)
    (replicas : D.required ≤ D.plain + (N - 1)) :
    ∃ s', Reaches D.step s s' ∧ (∀ c, (s'.loc c).pc = .finished) ∧
      ∀ t o, s'.net.seen t o = (s'.net.log o).length := by
  induction left : D.totalWork s using Nat.strongRecOn generalizing s with
  | ind left ih =>
      obtain ⟨s₁, replayed, same, delivered⟩ := exists_delivered (D := D) live.orderly.sound.wf
      have live₁ := live.run sane replayed
      by_cases done : ∀ c, (s₁.loc c).pc = .finished
      · exact ⟨s₁, replayed, done, delivered⟩
      · push Not at done
        obtain ⟨c, unfinished⟩ := done
        obtain ⟨d, active, free⟩ := live₁.exists_free sane delivered unfinished
        obtain ⟨s₂, advanced, less⟩ :=
          live₁.exists_advance sane order replicas delivered active free
        have before := totalWork_congr (D := D) same
        obtain ⟨s₃, rest, done, quiet⟩ := ih _ (by omega) (live₁.run sane advanced) rfl
        exact ⟨s₃, (replayed.trans advanced).trans rest, done, quiet⟩

end Step

/-- Whatever has happened so far, all clients can still reach the end of their ranges
with everything replayed, as long as a WAIT can find the replicas it asks for. -/
theorem completion_always_possible (D : Deployment k N) (sane : D.Sane)
    (order : ∀ inLoop, ∃ read, D.order inLoop read = true)
    (replicas : D.required ≤ D.plain + (N - 1)) {store : Key → Option ℤ}
    (lowered : ∀ ids v, store (.flag ids v) ≠ some 1) {s : State k N}
    (run : Reaches D.step (D.start store) s) :
    ∃ s', Reaches D.step s s' ∧ (∀ c, (s'.loc c).pc = .finished) ∧
      ∀ t o, s'.net.seen t o = (s'.net.log o).length :=
  ((start_live sane lowered).run sane run).exists_finished sane order replicas

theorem oneEdge_sane (server : Fin 2 → Fin N) (required : ℕ) : (oneEdge server required).Sane where
  valid := oneEdge_valid server required
  loops := by
    intro c v _ loop
    simp only [oneEdge] at loop
    split at loop
    · simp_all
    · split at loop <;> simp_all
  inside := by
    intro c i low high
    have index : i = (c.val : ℤ) := le_antisymm high low
    subst index
    rcases (show c = 0 ∨ c = 1 by omega) with rfl | rfl <;>
      simp [Deployment.client, oneEdge, Client.keyAt]

/-- On two servers, from a state in which client 1 waits for client 0. -/
theorem oneEdge_completion_possible :
    ∃ s, Reaches (oneEdge (id : Fin 2 → Fin 2) 1).step
        ((oneEdge (id : Fin 2 → Fin 2) 1).start (oneEdge (id : Fin 2 → Fin 2) 1).loaded) s ∧
      (s.loc 1).pc = .spin ⟨1, 0⟩ true none none ∧
      ∃ s', Reaches (oneEdge (id : Fin 2 → Fin 2) 1).step s s' ∧
        (∀ c, (s'.loc c).pc = .finished) ∧ ∀ t o, s'.net.seen t o = (s'.net.log o).length := by
  obtain ⟨s, run, pc⟩ := exists_run_of_exec
    (oneEdge (id : Fin 2 → Fin 2) 1).step (fun _ _ => True)
    ((oneEdge (id : Fin 2 → Fin 2) 1).start (oneEdge (id : Fin 2 → Fin 2) 1).loaded)
    (fun s => (s.loc 1).pc = .spin ⟨1, 0⟩ true none none)
    [.client 0 (.smembers [1]), .client 0 (.smembers [1]), .client 0 .get,
      .client 1 (.smembers [0]), .client 1 (.smembers [0]), .client 1 .get,
      .client 0 .set, .deliver 1 0, .client 0 (.wait 1),
      .client 1 .set, .deliver 0 1, .client 1 (.wait 1),
      .client 1 .set, .deliver 0 1, .client 1 (.wait 1),
      .client 1 (.lockGet .otherFlag), .client 1 (.lockGet .turnVar)] (by decide +kernel)
  refine ⟨s, run, pc, completion_always_possible _ (oneEdge_sane _ _) ?_ (by decide) ?_ run⟩
  · intro inLoop
    exact ⟨if inLoop then .turnVar else .otherFlag, by cases inLoop <;> rfl⟩
  · intro ids v
    simp [Deployment.loaded]

/-- The points of a client before the first of its calls of `write_with_wait` returns. -/
def Pc.Early : Pc → Prop
  | .set (.flag _) _ => True
  | .wait (.flag _) => True
  | .set (.color _) _ => True
  | .wait (.color _) => True
  | .set _ _ => False
  | .wait _ => False
  | .spin _ _ _ _ => False
  | _ => True

/-- A client that has not got past its first node. -/
structure AtFirstWrite (D : Deployment k N) (c : Fin k) (l : Local) : Prop where
  index : l.i = D.firstNode c
  early : l.pc.Early

theorem caughtUp_le (s : State k N) (c : Fin k) (server : Fin N) :
    s.caughtUp c server ≤ N - 1 := by
  have some_of : ((List.finRange N).filter fun t => t ≠ server ∧
      s.mark c ≤ s.net.seen t server).Sublist ((List.finRange N).erase server) := by
    rw [(List.nodup_finRange N).erase_eq_filter]
    apply List.monotone_filter_right
    intro t counted
    simp only [decide_eq_true_eq] at counted
    simp [counted.1]
  have count := some_of.length_le
  rw [List.length_erase_of_mem (List.mem_finRange _), List.length_finRange] at count
  exact count

theorem Resumed.early {C : Client} {l l' : Local} (resumed : Resumed C l l') :
    l'.i = l.i ∧ l'.pc.Early := by
  cases resumed <;> simp [Pc.Early]

theorem Started.early {C : Client} {i : ℤ} {l : Local} (started : Started C i l) :
    l.i = i ∧ l.pc.Early := by
  cases started <;> simp [Pc.Early]

theorem Quiet.atFirstWrite {s : State k N} {c : Fin k} {move : Move} {l' : Local}
    (quiet : Quiet D s c move l') (first : AtFirstWrite D c (s.loc c))
    (few : D.plain + (N - 1) < D.required) : AtFirstWrite D c l' := by
  have early := first.early
  have kept : l'.i = (s.loc c).i ∧ l'.pc.Early := by
    cases quiet with
    | neighbours reply pc members => simp [Pc.Early]
    | boundary reply l' pc resumed => exact resumed.early
    | mustLock u pc status => simp [Pc.Early]
    | skipLock u pc status => simp [Pc.Early]
    | color u l' pc resumed => exact resumed.early
    | resend w acks pc =>
        rw [pc] at early
        cases w <;> simp_all [Pc.Early]
    | written w acks pc enough bound =>
        have most := caughtUp_le s c (D.server c)
        omega
    | read L inLoop r f t f' t' pc answer =>
        rw [pc] at early
        exact early.elim
  exact ⟨kept.1.trans first.index, kept.2⟩

theorem start_atFirstWrite (c : Fin k) : AtFirstWrite D c (D.client c).start := by
  unfold Client.start
  split
  · exact ⟨rfl, trivial⟩
  · obtain ⟨index, early⟩ := (processAt_started (D.client c) (D.client c).firstNode).early
    exact ⟨index, early⟩

/-- Colours and raised flags: all that is sent before a call of `write_with_wait` returns. -/
def FirstEntries (s : State k N) : Prop :=
  ∀ o key v, (key, v) ∈ s.net.log o →
    (∃ u, key = .color u) ∨ ∃ ids u, key = .flag ids u ∧ v = 1

theorem firstWrite_step {s s' : State k N} {a : Action k N}
    (few : D.plain + (N - 1) < D.required) (taken : StepCase D s a s')
    (first : (∀ c, AtFirstWrite D c (s.loc c)) ∧ FirstEntries s) :
    (∀ c, AtFirstWrite D c (s'.loc c)) ∧ FirstEntries s' := by
  obtain ⟨clients, entries⟩ := first
  cases taken with
  | quiet c move l' quiet =>
      refine ⟨fun d => ?_, entries⟩
      by_cases same : d = c
      · subst same
        rw [put_loc_self]
        exact quiet.atFirstWrite (clients d) few
      · rw [put_loc_other s l' same]
        exact clients d
  | send c w again pc =>
      have early := (clients c).early
      rw [pc] at early
      refine ⟨fun d => ?_, ?_⟩
      · by_cases same : d = c
        · subst same
          rw [put_loc_self]
          refine ⟨(clients d).index, ?_⟩
          cases w <;> simp_all [Pc.Early]
        · rw [put_loc_other _ _ same]
          exact clients d
      · intro o key v member
        rw [put_net, send_net, Net.mem_write_log] at member
        rcases member with old | ⟨_, new⟩
        · exact entries o key v old
        · cases new
          cases w with
          | flag lock => exact Or.inr ⟨_, _, rfl, rfl⟩
          | color x => exact Or.inl ⟨_, rfl⟩
          | turn lock => exact early.elim
          | status => exact early.elim
          | release lock => exact early.elim
  | deliver t o key v front => exact ⟨clients, entries⟩

end DistributedColoring

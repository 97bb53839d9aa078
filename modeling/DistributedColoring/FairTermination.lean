import DistributedColoring.Completable
import DistributedColoring.FairTrace

set_option autoImplicit false

/- Every fair run ends. Fairness asks that an unfinished client is scheduled again and
again, that what is written is replayed at last, and that a WAIT which is repeated finds
the replicas it asks for at some point. Nothing is assumed about the order in which
clients pass their spin loops. -/
namespace DistributedColoring

open FairTrace
open GuardedRun
open ReplicatedLog

variable {k N : ℕ} {D : Deployment k N}

structure Fair (D : Deployment k N) (trace : Trace D.step) : Prop where
  clients : ∀ c n, ((trace.state n).loc c).pc ≠ .finished →
    ∃ m, n ≤ m ∧ ∃ move, trace.act m = some (.client c move)
  waits : ∀ c n w, ((trace.state n).loc c).pc = .wait w →
    ∃ m, n ≤ m ∧ ∃ acks, D.required ≤ acks ∧ trace.act m = some (.client c (.wait acks))
  replays : ∀ t o n, (trace.state n).net.seen t o ≠ ((trace.state n).net.log o).length →
    ∃ m, n ≤ m ∧ trace.act m = some (.deliver t o)

section Step

variable {s s' : State k N} {a : Action k N}

/-- Only its own commands move a client. -/
theorem StepCase.loc_eq (taken : StepCase D s a s') {c : Fin k}
    (others : ∀ move, a ≠ .client c move) : s'.loc c = s.loc c := by
  cases taken with
  | quiet d move l' quiet => exact put_loc_other s l' fun same => others move (same ▸ rfl)
  | send d w again pc => exact put_loc_other _ _ fun same => others .set (same ▸ rfl)
  | deliver t o key v front => rfl

/-- The next command of a client finds it as it was left. -/
theorem Fair.exists_next {trace : Trace D.step} (fair : Fair D trace) {c : Fin k} {n : ℕ}
    (unfinished : ((trace.state n).loc c).pc ≠ .finished) :
    ∃ m, n ≤ m ∧ (trace.state m).loc c = (trace.state n).loc c ∧
      ∃ move, D.step (trace.state m) (.client c move) = some (trace.state (m + 1)) := by
  have kept : ∀ m, n ≤ m → ¬ (∃ move, trace.act m = some (.client c move)) →
      (trace.state (m + 1)).loc c = (trace.state m).loc c := by
    intro m _ other
    cases action : trace.act m with
    | none => rw [trace.idle m action]
    | some a =>
        apply (step_cases (trace.moved m a action)).loc_eq
        rintro move rfl
        exact other ⟨move, action⟩
  obtain ⟨m, later, ⟨move, action⟩, same⟩ :=
    trace.first (fun s => s.loc c) (fair.clients c n unfinished) kept
  exact ⟨m, later, same, move, trace.moved m _ action⟩

/-- A command in the spin loop is one of its two GETs. -/
theorem read_cases {c : Fin k} {move : Move} {L : ClientGraphPetersonLock} {inLoop : Bool}
    {f t : Option (Reply ℤ)} (pc : (s.loc c).pc = .spin L inLoop f t)
    (taken : D.step s (.client c move) = some s') :
    ∃ read f' t', LockAnswer s (D.server c) L read f t f' t' ∧
      s'.loc c = Client.onLockReads (s.loc c) L inLoop f' t' := by
  cases step_cases taken with
  | quiet _ _ l' quiet =>
      cases quiet with
      | read K inLoop' r f₁ t₁ f' t' spins answer =>
          rw [pc] at spins
          cases spins
          exact ⟨r, f', t', answer, put_loc_self s c _⟩
      | neighbours reply other members => simp [pc] at other
      | boundary reply l' other resumed => simp [pc] at other
      | mustLock u other status => simp [pc] at other
      | skipLock u other status => simp [pc] at other
      | color u l' other resumed => simp [pc] at other
      | resend w acks other => simp [pc] at other
      | written w acks other enough bound => simp [pc] at other
  | send _ w again other => simp [pc] at other

/-- The first GET of a test leaves the client with a copy from its server. -/
theorem read_begins {c : Fin k} {move : Move} {L : ClientGraphPetersonLock} {inLoop : Bool}
    (pc : (s.loc c).pc = .spin L inLoop none none)
    (taken : D.step s (.client c move) = some s') :
    ∃ f t, (s'.loc c).pc = .spin L inLoop f t ∧ (f ≠ none ∨ t ≠ none) ∧
      f.getD (s.get (D.server c) L.lockKey2) = s.get (D.server c) L.lockKey2 ∧
      t.getD (s.get (D.server c) L.turnKey) = s.get (D.server c) L.turnKey := by
  obtain ⟨read, f, t, answer, result⟩ := read_cases pc taken
  cases answer with
  | otherFlag =>
      rw [result]
      exact ⟨_, none, rfl, Or.inl (Option.some_ne_none _), rfl, rfl⟩
  | turnVar =>
      rw [result]
      exact ⟨none, _, rfl, Or.inr (Option.some_ne_none _), rfl, rfl⟩

/-- The second GET decides the test; a client that is kept starts a new one. -/
theorem read_decides {c : Fin k} {move : Move} {L : ClientGraphPetersonLock} {inLoop : Bool}
    {f t : Option (Reply ℤ)} (pc : (s.loc c).pc = .spin L inLoop f t) (one : f ≠ none ∨ t ≠ none)
    (taken : D.step s (.client c move) = some s') (stalled : Stalled (s.loc c) (s'.loc c)) :
    (s'.loc c).pc = .spin L true none none ∧
      mustWait (f.getD (s.get (D.server c) L.lockKey2)) (t.getD (s.get (D.server c) L.turnKey))
        L.nodeName = some true := by
  obtain ⟨read, f', t', answer, result⟩ := read_cases pc taken
  have both : f' = some (f.getD (s.get (D.server c) L.lockKey2)) ∧
      t' = some (t.getD (s.get (D.server c) L.turnKey)) := by
    cases answer with
    | otherFlag =>
        cases t with
        | none => simp at one
        | some turn => exact ⟨rfl, rfl⟩
    | turnVar =>
        cases f with
        | none => simp at one
        | some flag => exact ⟨rfl, rfl⟩
  rw [both.1, both.2] at result
  have spins : ∃ inLoop f t, (s'.loc c).pc = .spin L inLoop f t := by
    cases stalled with
    | spinning K _ inLoop' _ _ f' t' before after =>
        rw [pc] at before
        cases before
        exact ⟨inLoop', f', t', after⟩
    | unacknowledged w before after => simp [pc] at before
    | repeated w before after => simp [pc] at before
  rw [result] at spins ⊢
  unfold Client.onLockReads at spins ⊢
  cases test : mustWait (f.getD (s.get (D.server c) L.lockKey2))
      (t.getD (s.get (D.server c) L.turnKey)) L.nodeName with
  | none => simp [test] at spins
  | some waits =>
      cases waits with
      | false => simp [test] at spins
      | true => simp [test]

end Step

section End

variable {s s' : State k N} {trace : Trace D.step}

/-- Without a WAIT that counts enough replicas a client stays with its write. -/
theorem StepCase.sent {c : Fin k} {move : Move} (taken : StepCase D s (.client c move) s')
    {w : Write} (sent : (s.loc c).pc.Sent w)
    (short : ∀ acks, D.required ≤ acks → move ≠ .wait acks) : (s'.loc c).pc.Sent w := by
  cases taken with
  | quiet _ _ l' quiet =>
      rw [put_loc_self]
      cases quiet with
      | resend w' acks pc =>
          have same : w' = w := by simpa [Pc.Sent, pc] using sent
          rw [same]
          exact Or.inr rfl
      | written w' acks pc enough bound => exact absurd rfl (short acks enough)
      | neighbours reply pc members => simp [Pc.Sent, pc] at sent
      | boundary reply l' pc resumed => simp [Pc.Sent, pc] at sent
      | mustLock u pc status => simp [Pc.Sent, pc] at sent
      | skipLock u pc status => simp [Pc.Sent, pc] at sent
      | color u l' pc resumed => simp [Pc.Sent, pc] at sent
      | read L inLoop r f t f' t' pc answer => simp [Pc.Sent, pc] at sent
  | send _ w' again pc =>
      have same : w' = w ∧ again = true := by simpa [Pc.Sent, pc] using sent
      rw [put_loc_self, same.1]
      exact Or.inl rfl

/-- A WAIT that never counts enough replicas is repeated for ever. -/
theorem waits_of_end {c : Fin k} {n : ℕ} {w : Write}
    (pc : ((trace.state n).loc c).pc = .wait w)
    (ends : ∃ m, n ≤ m ∧ ((trace.state m).loc c).pc = .finished) :
    ∃ m, n ≤ m ∧ ∃ acks, D.required ≤ acks ∧ trace.act m = some (.client c (.wait acks)) := by
  by_contra never
  push Not at never
  have stuck : ∀ m, n ≤ m → ((trace.state m).loc c).pc.Sent w := by
    intro m later
    induction m, later using Nat.le_induction with
    | base => exact Or.inl pc
    | succ m later ih =>
        cases action : trace.act m with
        | none =>
            rw [trace.idle m action]
            exact ih
        | some a =>
            have kind := step_cases (trace.moved m a action)
            by_cases mine : ∃ move, a = .client c move
            · obtain ⟨move, rfl⟩ := mine
              exact kind.sent ih fun acks enough same => never m later acks enough (same ▸ action)
            · rw [kind.loc_eq fun move same => mine ⟨move, same⟩]
              exact ih
  obtain ⟨m, later, finished⟩ := ends
  rcases stuck m later with waits | sets
  · simp [finished] at waits
  · simp [finished] at sets

/-- Only its own replay lets a server catch up with a log. -/
theorem StepCase.behind {a : Action k N} (taken : StepCase D s a s') (wf : s.net.WellFormed)
    {t o : Fin N} (late : s.net.seen t o < (s.net.log o).length) (other : a ≠ .deliver t o) :
    s'.net.seen t o < (s'.net.log o).length := by
  have apart : t ≠ o := by
    rintro rfl
    rw [wf.own] at late
    exact lt_irrefl _ late
  cases taken with
  | quiet c move l' quiet => exact late
  | send c w again pc =>
      rw [put_net, send_net]
      by_cases origin : o = D.server c
      · subst origin
        rw [Net.write_log_self]
        simp only [Net.write, Function.update_of_ne apart, List.length_append]
        omega
      · rw [Net.write_log_other _ _ _ origin]
        by_cases receiver : t = D.server c
        · subst receiver
          simpa [Net.write, origin] using late
        · simpa [Net.write, receiver] using late
  | deliver r q key v front =>
      have fields : ¬ (t = r ∧ o = q) := fun same => other (by rw [same.1, same.2])
      by_cases receiver : t = r
      · subst receiver
        have origin : o ≠ q := fun same => fields ⟨rfl, same⟩
        simpa [Net.replay, origin] using late
      · simpa [Net.replay, receiver] using late

/-- A client that has got to its end was scheduled before. -/
theorem clients_of_end {c : Fin k} {n : ℕ} (unfinished : ((trace.state n).loc c).pc ≠ .finished)
    (ends : ∃ m, n ≤ m ∧ ((trace.state m).loc c).pc = .finished) :
    ∃ m, n ≤ m ∧ ∃ move, trace.act m = some (.client c move) := by
  by_contra never
  push Not at never
  have same : ∀ m, n ≤ m → (trace.state m).loc c = (trace.state n).loc c := by
    intro m later
    induction m, later using Nat.le_induction with
    | base => rfl
    | succ m later ih =>
        rw [← ih]
        cases action : trace.act m with
        | none => rw [trace.idle m action]
        | some a =>
            apply (step_cases (trace.moved m a action)).loc_eq
            rintro move rfl
            exact never m later move action
  obtain ⟨m, later, finished⟩ := ends
  rw [same m later] at finished
  exact unfinished finished

/-- What has been replayed in the end was replayed by a step. -/
theorem replays_of_end {t o : Fin N} {n : ℕ}
    (wf : ∀ m, (trace.state m).net.WellFormed)
    (behind : (trace.state n).net.seen t o ≠ ((trace.state n).net.log o).length)
    (ends : ∃ m, n ≤ m ∧ (trace.state m).net.seen t o = ((trace.state m).net.log o).length) :
    ∃ m, n ≤ m ∧ trace.act m = some (.deliver t o) := by
  by_contra never
  push Not at never
  have still : ∀ m, n ≤ m → (trace.state m).net.seen t o < ((trace.state m).net.log o).length := by
    intro m later
    induction m, later using Nat.le_induction with
    | base => exact lt_of_le_of_ne ((wf n).bounded t o) behind
    | succ m later ih =>
        cases action : trace.act m with
        | none =>
            rw [trace.idle m action]
            exact ih
        | some a =>
            have kind := step_cases (trace.moved m a action)
            have other : a ≠ .deliver t o := fun same => never m later (same ▸ action)
            exact kind.behind (wf m) ih other
  obtain ⟨m, later, replayed⟩ := ends
  have less := still m later
  omega

/-- A run that ends with everybody finished and everything replayed is fair. -/
theorem fair_of_end (wf : ∀ m, (trace.state m).net.WellFormed) {n : ℕ} {s : State k N}
    (stays : ∀ m, n ≤ m → trace.state m = s) (done : ∀ c, (s.loc c).pc = .finished)
    (delivered : ∀ t o, s.net.seen t o = (s.net.log o).length) : Fair D trace := by
  have atEnd : ∀ m, ∃ l, m ≤ l ∧ trace.state l = s := fun m =>
    ⟨max m n, Nat.le_max_left m n, stays _ (Nat.le_max_right m n)⟩
  refine ⟨?_, ?_, ?_⟩
  · intro c m unfinished
    obtain ⟨l, later, same⟩ := atEnd m
    exact clients_of_end unfinished ⟨l, later, by rw [same]; exact done c⟩
  · intro c m w pc
    obtain ⟨l, later, same⟩ := atEnd m
    exact waits_of_end pc ⟨l, later, by rw [same]; exact done c⟩
  · intro t o m behind
    obtain ⟨l, later, same⟩ := atEnd m
    exact replays_of_end wf behind ⟨l, later, by rw [same]; exact delivered t o⟩

/-- Where a WAIT can find the replicas it asks for, fair runs exist. -/
theorem exists_fair (sane : D.Sane) (order : ∀ inLoop, ∃ read, D.order inLoop read = true)
    (replicas : D.required ≤ D.plain + (N - 1)) {store : Key → Option ℤ}
    (lowered : ∀ ids v, store (.flag ids v) ≠ some 1) :
    ∃ trace : Trace D.step, trace.state 0 = D.start store ∧ Fair D trace := by
  have live := start_live sane lowered
  obtain ⟨s, run, done, delivered⟩ := live.exists_finished sane order replicas
  obtain ⟨trace, start, n, stays⟩ := Trace.of_reaches run
  refine ⟨trace, start, fair_of_end ?_ (fun m later => (stays m later).1) done delivered⟩
  intro m
  have reached := trace.reaches (Nat.zero_le m)
  rw [start] at reached
  exact (live.run sane reached).orderly.sound.wf

end End

/-- From `n` on no step brings a client closer to its end. -/
def Settled (trace : Trace D.step) (n : ℕ) : Prop :=
  ∀ m, n ≤ m → D.totalWork (trace.state m) = D.totalWork (trace.state n)

theorem Settled.later {trace : Trace D.step} {n m : ℕ} (settled : Settled trace n)
    (later : n ≤ m) : Settled trace m := by
  intro l after
  rw [settled l (later.trans after), settled m later]

theorem exists_settled (trace : Trace D.step) : ∃ n, Settled trace n := by
  obtain ⟨n, _, settled⟩ := trace.settles D.totalWork (n := 0) fun m _ => by
    cases action : trace.act m with
    | none => rw [trace.idle m action]
    | some a => exact (step_cases (trace.moved m a action)).work_le
  exact ⟨n, settled⟩

section Settled

variable {trace : Trace D.step} {n : ℕ}

theorem Settled.stalled (settled : Settled trace n) {m : ℕ} (later : n ≤ m) {c : Fin k}
    {move : Move} (taken : D.step (trace.state m) (.client c move) = some (trace.state (m + 1))) :
    Stalled ((trace.state m).loc c) ((trace.state (m + 1)).loc c) := by
  by_contra moved
  have less := lt_of_not_stalled taken moved
  rw [settled (m + 1) (by omega), settled m later] at less
  exact lt_irrefl _ less

/-- Nobody is left in `write_with_wait`. -/
theorem Settled.not_waiting (settled : Settled trace n) (fair : Fair D trace) {m : ℕ}
    (later : n ≤ m) (c : Fin k) (w : Write) : ((trace.state m).loc c).pc ≠ .wait w := by
  intro pc
  obtain ⟨l, after, acks, enough, action⟩ := fair.waits c m w pc
  have taken := trace.moved l _ action
  obtain ⟨w', waits, result⟩ := step_wait_cases taken enough
  have less := totalWork_put_lt (D := D) (written_work_lt (D := D) waits)
  rw [← result, settled (l + 1) (by omega), settled l (later.trans after)] at less
  exact lt_irrefl _ less

theorem Settled.not_setting (settled : Settled trace n) (fair : Fair D trace) {m : ℕ}
    (later : n ≤ m) (c : Fin k) (w : Write) (again : Bool) :
    ((trace.state m).loc c).pc ≠ .set w again := by
  intro pc
  obtain ⟨l, after, same, move, taken⟩ := fair.exists_next (c := c) (n := m) (by simp [pc])
  rw [← same] at pc
  cases settled.stalled (later.trans after) taken with
  | spinning L _ _ _ _ _ _ spins _ =>
      rw [pc] at spins
      cases spins
  | unacknowledged w' waits _ =>
      rw [pc] at waits
      cases waits
  | repeated w' _ waits => exact settled.not_waiting fair (by omega) c w' waits

/-- So everybody who is not finished spins. -/
theorem Settled.spinning (settled : Settled trace n) (fair : Fair D trace) {m : ℕ}
    (later : n ≤ m) {c : Fin k} (unfinished : ((trace.state m).loc c).pc ≠ .finished) :
    ∃ L inLoop f t, ((trace.state m).loc c).pc = .spin L inLoop f t := by
  obtain ⟨l, after, same, move, taken⟩ := fair.exists_next unfinished
  rw [← same]
  cases settled.stalled (later.trans after) taken with
  | spinning L inLoop _ f t _ _ spins _ => exact ⟨L, inLoop, f, t, spins⟩
  | unacknowledged w waits _ =>
      exact absurd waits (settled.not_waiting fair (later.trans after) c w)
  | repeated w sets _ =>
      exact absurd sets (settled.not_setting fair (later.trans after) c w true)

/-- Nothing is written any more. -/
theorem Settled.net_cases (settled : Settled trace n) (fair : Fair D trace) {m : ℕ}
    (later : n ≤ m) :
    (trace.state (m + 1)).net = (trace.state m).net ∨
      ∃ t o, trace.act m = some (.deliver t o) ∧
        (trace.state m).net.deliver t o = some (trace.state (m + 1)).net := by
  cases action : trace.act m with
  | none => exact Or.inl (congrArg State.net (trace.idle m action))
  | some a =>
      have taken := trace.moved m a action
      cases a with
      | deliver t o =>
          obtain ⟨net, delivered, same⟩ := Option.map_eq_some_iff.mp taken
          rw [← same]
          exact Or.inr ⟨t, o, rfl, delivered⟩
      | client c move =>
          left
          have kind := step_cases taken
          generalize trace.state (m + 1) = after at kind
          cases kind with
          | quiet _ _ l' quiet => rfl
          | send _ w again pc => exact absurd pc (settled.not_setting fair later c w again)

/-- After a while everything is replayed, and the servers stay as they are. -/
theorem Settled.exists_quiet (settled : Settled trace n) (fair : Fair D trace) :
    ∃ l, n ≤ l ∧ (∀ m, l ≤ m → (trace.state m).net = (trace.state l).net) ∧
      ∀ t o, (trace.state l).net.seen t o = ((trace.state l).net.log o).length := by
  obtain ⟨l, after, constant⟩ := trace.settles (fun s => s.net.pending) (n := n) (by
    intro m later
    rcases settled.net_cases fair later with same | ⟨t, o, _, delivered⟩
    · rw [same]
    · exact (Net.deliver_pending delivered).le)
  have still : ∀ m, l ≤ m → ∀ t o, (trace.state m).net.deliver t o ≠
      some (trace.state (m + 1)).net := by
    intro m later t o delivered
    have less := Net.deliver_pending delivered
    rw [constant (m + 1) (by omega), constant m later] at less
    exact lt_irrefl _ less
  refine ⟨l, after, ?_, ?_⟩
  · intro m later
    induction m, later using Nat.le_induction with
    | base => rfl
    | succ m later ih =>
        rcases settled.net_cases fair (after.trans later) with same | ⟨t, o, _, delivered⟩
        · exact same.trans ih
        · exact absurd delivered (still m later t o)
  · intro t o
    by_contra behind
    obtain ⟨m, later, action⟩ := fair.replays t o l behind
    obtain ⟨net, delivered, same⟩ := Option.map_eq_some_iff.mp (trace.moved m _ action)
    apply still m later t o
    rw [← same]
    exact delivered

/-- A client that is not blocked by servers that stay as they are gets out of its loop. -/
theorem Settled.not_free (settled : Settled trace n) (fair : Fair D trace)
    (live : ∀ m, Live D (trace.state m))
    (still : ∀ m, n ≤ m → (trace.state m).net = (trace.state n).net) {c : Fin k}
    (unfinished : ((trace.state n).loc c).pc ≠ .finished) : Blocked D (trace.state n) c := by
  by_contra free
  obtain ⟨L, inLoop, f, t, pc⟩ := settled.spinning fair (Nat.le_refl n) unfinished
  have free_later : ∀ m, n ≤ m → ∀ inLoop f t,
      ((trace.state m).loc c).pc = .spin L inLoop f t → ¬ Blocked D (trace.state m) c := by
    rintro m later _ _ _ spins ⟨K, _, _, _, spins', up, turn⟩
    rw [spins] at spins'
    cases spins'
    rw [still m later] at up turn
    exact free ⟨L, inLoop, f, t, pc, up, turn⟩
  -- a test that was begun with old replies is over after one more GET
  have fresh : ∃ m inLoop, n ≤ m ∧ ((trace.state m).loc c).pc = .spin L inLoop none none := by
    by_cases unread : f = none ∧ t = none
    · exact ⟨n, inLoop, Nat.le_refl n, by rw [pc, unread.1, unread.2]⟩
    · obtain ⟨m, later, same, move, taken⟩ := fair.exists_next unfinished
      have kept := read_decides (by rw [same, pc]) (by tauto) taken (settled.stalled later taken)
      exact ⟨m + 1, true, by omega, kept.1⟩
  obtain ⟨m, inLoop₁, later, spins⟩ := fresh
  obtain ⟨m₁, later₁, same₁, move₁, taken₁⟩ := fair.exists_next (c := c) (n := m) (by simp [spins])
  obtain ⟨f₁, t₁, half, one, freshFlag, freshTurn⟩ := read_begins (by rw [same₁, spins]) taken₁
  obtain ⟨m₂, later₂, same₂, move₂, taken₂⟩ :=
    fair.exists_next (c := c) (n := m₁ + 1) (by simp [half])
  have half₂ : ((trace.state m₂).loc c).pc = .spin L inLoop₁ f₁ t₁ := by rw [same₂, half]
  have kept := read_decides half₂ one taken₂ (settled.stalled (by omega) taken₂)
  have passes := (live m₂).free_test half₂ (free_later m₂ (by omega) _ _ _ half₂)
  have get_eq : ∀ key, (trace.state m₂).get (D.server c) key =
      (trace.state m₁).get (D.server c) key := by
    intro key
    unfold State.get
    rw [still m₂ (by omega), still m₁ (by omega)]
  rw [get_eq, get_eq] at passes
  rw [get_eq, get_eq, freshFlag, freshTurn, passes] at kept
  cases kept.2

end Settled

/-- A finished client sends no command. -/
theorem step_ne_of_finished {s s' : State k N} {c : Fin k} {move : Move}
    (finished : (s.loc c).pc = .finished) : D.step s (.client c move) ≠ some s' := by
  simp [Deployment.step, Deployment.clientStep, Deployment.clientMove, finished]

section Fair

variable {trace : Trace D.step} {store : Key → Option ℤ}

theorem live_of_start (sane : D.Sane) (lowered : ∀ ids v, store (.flag ids v) ≠ some 1)
    (start : trace.state 0 = D.start store) (m : ℕ) : Live D (trace.state m) := by
  have first : Live D (trace.state 0) := start ▸ start_live sane lowered
  exact first.run sane (trace.reaches (Nat.zero_le m))

/-- From some point on all clients are finished and the servers stay as they are. -/
theorem Fair.exists_end (fair : Fair D trace) (sane : D.Sane)
    (live : ∀ m, Live D (trace.state m)) :
    ∃ n, ∀ m, n ≤ m → (∀ c, ((trace.state m).loc c).pc = .finished) ∧
      (∀ t o, (trace.state m).net.seen t o = ((trace.state m).net.log o).length) ∧
      (trace.state m).net = (trace.state n).net := by
  obtain ⟨n₀, settled₀⟩ := exists_settled trace
  obtain ⟨n, after, still, delivered⟩ := settled₀.exists_quiet fair
  have settled := settled₀.later after
  refine ⟨n, fun m later => ?_⟩
  have delivered' : ∀ t o, (trace.state m).net.seen t o =
      ((trace.state m).net.log o).length := by
    rw [still m later]
    exact delivered
  refine ⟨fun c => ?_, delivered', still m later⟩
  by_contra unfinished
  obtain ⟨d, active, free⟩ := (live m).exists_free sane delivered' unfinished
  refine free ((settled.later later).not_free fair live ?_ active.1)
  intro l further
  rw [still l (later.trans further), still m later]

end Fair

/-- Every fair run comes to rest with all clients at the end of their ranges and all that
was written replayed everywhere. -/
theorem fair_runs_come_to_rest (D : Deployment k N) (sane : D.Sane) {store : Key → Option ℤ}
    (lowered : ∀ ids v, store (.flag ids v) ≠ some 1) (trace : Trace D.step)
    (start : trace.state 0 = D.start store) (fair : Fair D trace) :
    ∃ n, (∀ m, n ≤ m → trace.state m = trace.state n) ∧
      (∀ c, ((trace.state n).loc c).pc = .finished) ∧
      ∀ t o, (trace.state n).net.seen t o = ((trace.state n).net.log o).length := by
  obtain ⟨n, ends⟩ := fair.exists_end sane (live_of_start sane lowered start)
  refine ⟨n, ?_, (ends n (Nat.le_refl n)).1, (ends n (Nat.le_refl n)).2.1⟩
  intro m later
  induction m, later using Nat.le_induction with
  | base => rfl
  | succ m later ih =>
      obtain ⟨finished, delivered, _⟩ := ends m later
      cases action : trace.act m with
      | none => rw [trace.idle m action, ih]
      | some a =>
          have taken := trace.moved m a action
          cases a with
          | client c move => exact absurd taken (step_ne_of_finished (finished c))
          | deliver t o =>
              -- nothing is left to replay
              obtain ⟨net, replayed, _⟩ := Option.map_eq_some_iff.mp taken
              obtain ⟨key, v, front, _⟩ := Net.deliver_cases replayed
              rw [delivered, List.drop_length] at front
              cases front

/-- Two clients on two servers have a fair run, and it ends. -/
theorem oneEdge_fair_run_rests :
    ∃ trace : Trace (oneEdge (id : Fin 2 → Fin 2) 1).step,
      trace.state 0 = (oneEdge (id : Fin 2 → Fin 2) 1).start (oneEdge id 1).loaded ∧
      Fair (oneEdge (id : Fin 2 → Fin 2) 1) trace ∧
      ∃ n, (∀ m, n ≤ m → trace.state m = trace.state n) ∧
        (∀ c, ((trace.state n).loc c).pc = .finished) ∧
        ∀ t o, (trace.state n).net.seen t o = ((trace.state n).net.log o).length := by
  have sane := oneEdge_sane (id : Fin 2 → Fin 2) 1
  have lowered : ∀ ids v, (oneEdge (id : Fin 2 → Fin 2) 1).loaded (.flag ids v) ≠ some 1 := by
    intro ids v
    simp [Deployment.loaded]
  obtain ⟨trace, start, fair⟩ := exists_fair sane (fun inLoop =>
    ⟨if inLoop then .turnVar else .otherFlag, by cases inLoop <;> rfl⟩) (by decide) lowered
  exact ⟨trace, start, fair, fair_runs_come_to_rest _ sane lowered trace start fair⟩

end DistributedColoring

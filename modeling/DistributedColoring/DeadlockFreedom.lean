import DistributedColoring.EdgeLock

set_option autoImplicit false

/- Locks are taken in ascending order of the neighbours, so clients cannot wait for
each other in a circle. Nothing here depends on how many acknowledgements a client
waits for. -/
namespace DistributedColoring

open ReplicatedLog

variable {k N : ℕ} {D : Deployment k N}

/-- The flag of a lock is up: past its first SET, before the first SET that lowers it. -/
def Pc.Raising (L : ClientGraphPetersonLock) : Pc → Prop
  | .set (.flag K) again => K = L ∧ again = true
  | .wait (.flag K) => K = L
  | .set (.turn K) _ => K = L
  | .wait (.turn K) => K = L
  | .spin K _ _ _ => K = L
  | .set (.release K) again => K = L ∧ again = false
  | _ => False

def Local.Raised (l : Local) (L : ClientGraphPetersonLock) : Prop :=
  L ∈ l.locks ∨ l.pc.Raising L

/-- The turn of a lock has been announced. -/
def Pc.Announced (pc : Pc) (L : ClientGraphPetersonLock) : Prop :=
  pc.Sent (.turn L) ∨ ∃ inLoop otherFlag turnVar, pc = .spin L inLoop otherFlag turnVar

/-- The replies of the spin loop can be compared without a crash. -/
def Pc.Answered (pc : Pc) : Prop :=
  ∀ L inLoop otherFlag turnVar, pc = .spin L inLoop otherFlag turnVar →
    (∀ r, otherFlag = some r → r ≠ .null) ∧ ∀ r, turnVar = some r → ∃ x, r = .value x

theorem mustWait_ne_none {otherFlag : Reply ℤ} (known : otherFlag ≠ .null) (x : ℤ) (v : ℕ) :
    mustWait otherFlag (.value x) v ≠ none := by
  unfold mustWait turnIsMine
  cases otherFlag with
  | null => exact absurd rfl known
  | nil => simp
  | error msg => dsimp only; split <;> simp
  | value flag => dsimp only; split <;> simp

theorem Started.calm {C : Client} {i : ℤ} {l : Local} (started : Started C i l) :
    l.locks = [] ∧ l.pc.Answered ∧ ∀ L, ¬ l.pc.Announced L := by
  cases started <;> simp [Pc.Answered, Pc.Announced, Pc.Sent]

theorem Released.calm {C : Client} {l l' : Local} (released : Released C l l') :
    (¬ l'.pc.Active → l'.locks = []) ∧ l'.pc.Answered ∧ ∀ L, ¬ l'.pc.Announced L := by
  cases released with
  | unlock lock rest split => simp [Pc.Active, Pc.Answered, Pc.Announced, Pc.Sent]
  | next l' empty started =>
      obtain ⟨locks, answered, quiet⟩ := started.calm
      exact ⟨fun _ => locks, answered, quiet⟩

theorem Resumed.calm {C : Client} {l l' : Local} (resumed : Resumed C l l') :
    l'.locks = l.locks ∧ l'.pc.Active ∧ l'.pc.Answered ∧ ∀ L, ¬ l'.pc.Announced L := by
  cases resumed <;> simp [Pc.Active, Pc.Answered, Pc.Announced, Pc.Sent]

theorem LockAnswer.answered {s : State k N} {server : Fin N} {L : ClientGraphPetersonLock}
    {r : LockRead} {oldFlag oldTurn newFlag newTurn : Option (Reply ℤ)}
    (answer : LockAnswer s server L r oldFlag oldTurn newFlag newTurn) {inLoop : Bool}
    (old : (Pc.spin L inLoop oldFlag oldTurn).Answered)
    (stored : s.net.store server L.turnKey ≠ none) :
    (Pc.spin L inLoop newFlag newTurn).Answered := by
  obtain ⟨flags, turns⟩ := old L inLoop oldFlag oldTurn rfl
  intro K loop otherFlag turnVar same
  cases same
  cases answer with
  | otherFlag =>
      refine ⟨?_, turns⟩
      intro reply same
      rw [← Option.some.inj same, State.get]
      cases s.net.store server L.lockKey2 <;> simp [Reply.stored]
  | turnVar =>
      refine ⟨flags, ?_⟩
      intro reply same
      obtain ⟨x, value⟩ := Option.ne_none_iff_exists'.mp stored
      rw [← Option.some.inj same, State.get, value]
      exact ⟨x, rfl⟩

/-- What a step that writes nothing does to the locks of its client. -/
structure Calm (l l' : Local) : Prop where
  inactive : ¬ l'.pc.Active → l'.locks = []
  answered : l'.pc.Answered
  announced : ∀ L, l'.pc.Announced L → l.pc.Announced L
  raised : ∀ L, l.Raised L → l'.Raised L

theorem Released.raised {C : Client} {l l' : Local} (released : Released C l l')
    {L : ClientGraphPetersonLock} (held : L ∈ l.locks) : l'.Raised L := by
  cases released with
  | unlock K rest split =>
      rw [split] at held
      rcases List.mem_cons.mp held with same | later
      · rw [same]
        exact Or.inr ⟨rfl, rfl⟩
      · exact Or.inl later
  | next l' empty started =>
      rw [empty] at held
      cases held

/-- A spin test whose replies can be compared keeps the locks. -/
theorem Spun.calm {l l' : Local} {K : ClientGraphPetersonLock}
    {oldFlag oldTurn otherFlag turnVar : Option (Reply ℤ)} (spun : Spun l K otherFlag turnVar l')
    {inLoop : Bool} (pc : l.pc = .spin K inLoop oldFlag oldTurn)
    (answered : (Pc.spin K inLoop otherFlag turnVar).Answered) : Calm l l' := by
  obtain ⟨known, valued⟩ := answered K inLoop otherFlag turnVar rfl
  have current : ∀ L, l.pc.Raising L → K = L := by
    intro L raising
    rw [pc] at raising
    exact raising
  have spinning : ∀ loop f t, (Pc.spin K loop f t).Answered →
      Calm l { l with pc := .spin K loop f t } := by
    intro loop f t answered
    refine ⟨by simp [Pc.Active], answered, ?_, fun L raised => raised.imp_right (current L)⟩
    intro L announced
    have lock : K = L := by simpa [Pc.Announced, Pc.Sent] using announced
    rw [← lock, pc]
    exact Or.inr ⟨_, _, _, rfl⟩
  cases spun with
  | wait loop =>
      refine spinning loop _ _ ?_
      intro L loop' f t same
      cases same
      exact ⟨known, valued⟩
  | retry => exact spinning true none none (by simp [Pc.Answered])
  | enter =>
      refine ⟨by simp [Pc.Active], by simp [Pc.Answered], by simp [Pc.Announced, Pc.Sent], ?_⟩
      intro L raised
      apply Or.inl
      rcases raised with held | raising
      · exact List.mem_append_left _ held
      · rw [← current L raising]
        exact List.mem_append_right _ (List.mem_singleton_self K)
  | crash flag turn flags turns failed =>
      obtain ⟨x, value⟩ := valued turn turns
      subst value
      exact absurd failed (mustWait_ne_none (known flag flags) x _)

theorem Local.Raised.held {l : Local} {L : ClientGraphPetersonLock} (raised : l.Raised L)
    (idle : ¬ l.pc.Raising L) : L ∈ l.locks :=
  raised.resolve_right idle

/-- A step from a point where no lock is in hand to another such point. -/
theorem calm_of_idle {l l' : Local} (idle : ∀ L, ¬ l.pc.Raising L) (locks : l'.locks = l.locks)
    (active : l'.pc.Active) (answered : l'.pc.Answered) (quiet : ∀ L, ¬ l'.pc.Announced L) :
    Calm l l' where
  inactive := fun inactive => absurd active inactive
  answered := answered
  announced := fun L announced => absurd announced (quiet L)
  raised := by
    intro L raised
    apply Or.inl
    rw [locks]
    exact raised.held (idle L)

theorem Resumed.calm_from_idle {C : Client} {l l' m : Local} (resumed : Resumed C l l')
    (idle : ∀ L, ¬ m.pc.Raising L) (locks : l.locks = m.locks) : Calm m l' := by
  obtain ⟨kept, active, answered, quiet⟩ := resumed.calm
  exact calm_of_idle idle (kept.trans locks) active answered quiet

theorem Released.calm_from_idle {C : Client} {l l' : Local} (released : Released C l l')
    (idle : ∀ L, ¬ l.pc.Raising L) : Calm l l' := by
  obtain ⟨inactive, answered, quiet⟩ := released.calm
  exact ⟨inactive, answered, fun L announced => absurd announced (quiet L),
    fun L raised => released.raised (raised.held (idle L))⟩

theorem calm_of_written {C : Client} {l : Local} {w : Write} (pc : l.pc = .wait w) :
    Calm l (C.written l w) := by
  have raising : ∀ L, l.pc.Raising L → (Pc.wait w).Raising L := by
    intro L raising
    rwa [pc] at raising
  cases w with
  | flag K =>
      refine ⟨by simp [Client.written, Pc.Active], by simp [Client.written, Pc.Answered],
        by simp [Client.written, Pc.Announced, Pc.Sent], ?_⟩
      intro L raised
      exact raised.imp_right (raising L)
  | turn K =>
      refine ⟨by simp [Client.written, Pc.Active], by simp [Client.written, Pc.Answered], ?_, ?_⟩
      · intro L announced
        have lock : K = L := by simpa [Client.written, Pc.Announced, Pc.Sent] using announced
        rw [pc, lock]
        exact Or.inl (Or.inl rfl)
      · intro L raised
        exact raised.imp_right (raising L)
  | color x =>
      exact calm_of_idle raising rfl (by simp [Client.written, Pc.Active])
        (by simp [Client.written, Pc.Answered]) (by simp [Client.written, Pc.Announced, Pc.Sent])
  | status => exact (releaseNext_released C l).calm_from_idle raising
  | release K => exact (releaseNext_released C l).calm_from_idle raising

theorem Quiet.calm {s : State k N} {c : Fin k} {move : Move} {l' : Local}
    (quiet : Quiet D s c move l') (old : (s.loc c).pc.Answered)
    (stored : ∀ L, (s.loc c).pc.Announced L → s.net.store (D.server c) L.turnKey ≠ none) :
    Calm (s.loc c) l' := by
  cases quiet with
  | neighbours reply pc members =>
      exact calm_of_idle (by simp [pc, Pc.Raising]) rfl (by simp [Pc.Active])
        (by simp [Pc.Answered]) (by simp [Pc.Announced, Pc.Sent])
  | boundary reply l' pc resumed => exact resumed.calm_from_idle (by simp [pc, Pc.Raising]) rfl
  | mustLock u pc status =>
      exact calm_of_idle (by simp [pc, Pc.Raising]) rfl (by simp [Pc.Active])
        (by simp [Pc.Answered]) (by simp [Pc.Announced, Pc.Sent])
  | skipLock u pc status =>
      exact calm_of_idle (by simp [pc, Pc.Raising]) rfl (by simp [Pc.Active])
        (by simp [Pc.Answered]) (by simp [Pc.Announced, Pc.Sent])
  | color u l' pc resumed => exact resumed.calm_from_idle (by simp [pc, Pc.Raising]) rfl
  | resend w acks pc =>
      refine ⟨by simp [Pc.Active], by simp [Pc.Answered], ?_, ?_⟩
      · intro L announced
        have write : w = .turn L := by simpa [Pc.Announced, Pc.Sent] using announced
        rw [pc, write]
        exact Or.inl (Or.inl rfl)
      · intro L raised
        refine raised.imp_right fun raising => ?_
        rw [pc] at raising
        cases w <;> simp_all [Pc.Raising]
  | written w acks pc enough bound => exact calm_of_written pc
  | read K inLoop r oldFlag oldTurn newFlag newTurn pc answer =>
      have here : (s.loc c).pc.Announced K := by
        rw [pc]
        exact Or.inr ⟨_, _, _, rfl⟩
      have before : (Pc.spin K inLoop oldFlag oldTurn).Answered := by
        rw [← pc]
        exact old
      exact (onLockReads_spun (s.loc c) K inLoop newFlag newTurn).calm pc
        (answer.answered before (stored K here))

/-- Nobody waits for a turn that is not set, or holds replies that cannot be compared. -/
structure TurnsAnnounced (D : Deployment k N) (s : State k N) : Prop where
  answered : ∀ c, (s.loc c).pc.Answered
  stored : ∀ c L, (s.loc c).pc.Announced L → s.net.store (D.server c) L.turnKey ≠ none

/-- What a run without any condition keeps about flags and turns. -/
structure Orderly (D : Deployment k N) (s : State k N) : Prop where
  sound : Sound D s
  inactive : ∀ c, ¬ (s.loc c).pc.Active → (s.loc c).locks = []
  answered : ∀ c, (s.loc c).pc.Answered
  stored : ∀ c L, (s.loc c).pc.Announced L → s.net.store (D.server c) L.turnKey ≠ none
  raised : ∀ c L, D.Owns c L.node → s.net.store (D.server c) L.lockKey1 = some 1 →
    (s.loc c).Raised L
  owned : ∀ t ids v, s.net.store t (.flag ids v) = some 1 → ∃ c, D.Owns c v
  tie : ∀ c d L, Ends D c d L → ¬ (s.net.Shows (D.server c) L.turnKey L.node ∧
    s.net.Shows (D.server d) L.turnKey L.nbr)

theorem Orderly.turns {s : State k N} (orderly : Orderly D s) : TurnsAnnounced D s :=
  ⟨orderly.answered, orderly.stored⟩

section Step

variable {s s' : State k N} {a : Action k N}

theorem store_ne_none_step (taken : StepCase D s a s') {t : Fin N} {key : Key}
    (old : s.net.store t key ≠ none) : s'.net.store t key ≠ none := by
  cases taken with
  | quiet c move l' quiet => exact old
  | send c w again pc => exact Net.write_store_ne_none _ _ _ old
  | deliver r o entry v front => exact Net.replay_store_ne_none _ _ _ _ old

theorem TurnsAnnounced.stored_step (turns : TurnsAnnounced D s) (taken : StepCase D s a s')
    (c : Fin k) (L : ClientGraphPetersonLock) (announced : (s'.loc c).pc.Announced L) :
    s'.net.store (D.server c) L.turnKey ≠ none := by
  by_cases before : (s.loc c).pc.Announced L
  · exact store_ne_none_step taken (turns.stored c L before)
  · cases taken with
    | quiet d move l' quiet =>
        by_cases same : c = d
        · subst same
          rw [put_loc_self] at announced
          have calm := quiet.calm (turns.answered c) (turns.stored c)
          exact absurd (calm.announced L announced) before
        · rw [put_loc_other s l' same] at announced
          exact absurd announced before
    | send d w again pc =>
        by_cases same : c = d
        · subst same
          rw [put_loc_self] at announced
          have write : w = .turn L := by simpa [Pc.Announced, Pc.Sent] using announced
          subst write
          rw [put_net, send_net]
          change (s.net.write (D.server c) L.turnKey _).store (D.server c) L.turnKey ≠ none
          rw [Net.write_store_self]
          exact Option.some_ne_none _
        · rw [put_loc_other _ _ same] at announced
          exact absurd announced before
    | deliver t o key v front => exact absurd announced before

theorem TurnsAnnounced.step (turns : TurnsAnnounced D s) (taken : StepCase D s a s') :
    TurnsAnnounced D s' := by
  refine ⟨?_, turns.stored_step taken⟩
  intro c
  cases taken with
  | quiet d move l' quiet =>
      by_cases same : c = d
      · subst same
        rw [put_loc_self]
        exact (quiet.calm (turns.answered c) (turns.stored c)).answered
      · rw [put_loc_other s l' same]
        exact turns.answered c
  | send d w again pc =>
      by_cases same : c = d
      · subst same
        rw [put_loc_self]
        simp [Pc.Answered]
      · rw [put_loc_other _ _ same]
        exact turns.answered c
  | deliver t o key v front => exact turns.answered c

/-- A flag that is up at home belongs to a lock its client is using. -/
theorem Orderly.raised_step (orderly : Orderly D s) (valid : D.Valid) (taken : StepCase D s a s')
    (c : Fin k) (L : ClientGraphPetersonLock) (owns : D.Owns c L.node)
    (up : s'.net.store (D.server c) L.lockKey1 = some 1) : (s'.loc c).Raised L := by
  cases taken with
  | quiet d move l' quiet =>
      have old := orderly.raised c L owns up
      by_cases same : c = d
      · subst same
        rw [put_loc_self]
        exact (quiet.calm (orderly.answered c) (orderly.stored c)).raised L old
      · rw [put_loc_other s l' same]
        exact old
  | send d w again pc =>
      rw [put_net, send_net] at up
      by_cases key : L.lockKey1 = (w.command (s.loc d).node).1
      · have same : c = d := by
          by_contra other
          exact orderly.sound.key_apart valid pc other owns rfl key
        subst same
        rw [put_loc_self]
        rcases write_of_lockKey1 key.symm with flag | release
        · rw [flag]
          exact Or.inr rfl
        · rw [key, Net.write_store_self, release] at up
          simp [Write.command] at up
      · rw [Net.write_store_other_key _ _ _ _ key] at up
        have old := orderly.raised c L owns up
        by_cases same : c = d
        · subst same
          rw [put_loc_self]
          refine old.imp_right fun raising => ?_
          rw [pc] at raising
          cases w with
          | flag K => exact raising.1
          | turn K => exact raising
          | release K =>
              rw [raising.1] at key
              exact absurd rfl key
          | color x => exact raising
          | status => exact raising
        · rw [put_loc_other _ _ same]
          exact old
  | deliver t o key v front =>
      have quiet := (orderly.sound.tracks c L.lockKey1 L.node owns rfl).not_inFlight_self
        orderly.sound.wf
      apply orderly.raised c L owns
      rw [← up]
      exact (Net.replay_store_of_not_inFlight front quiet).symm

theorem Orderly.owned_step (orderly : Orderly D s) (taken : StepCase D s a s') (t : Fin N)
    (ids : ℕ × ℕ) (v : ℕ) (up : s'.net.store t (.flag ids v) = some 1) : ∃ c, D.Owns c v := by
  have logged : ∀ o value, Origin D o (.flag ids v) value → ∃ c, D.Owns c v := by
    rintro o value ⟨c, u, _, owns, writer | ⟨w, turn, _⟩⟩
    · cases writer
      exact ⟨c, owns⟩
    · cases turn
  cases taken with
  | quiet d move l' quiet => exact orderly.owned t ids v up
  | send d w again pc =>
      by_cases key : Key.flag ids v = (w.command (s.loc d).node).1
      · have origin := orderly.sound.origin_of_send pc
        rw [← key] at origin
        exact logged _ _ origin
      · rw [put_net, send_net, Net.write_store_other_key _ _ _ _ key] at up
        exact orderly.owned t ids v up
  | deliver r o key value front =>
      by_cases same : Key.flag ids v = key
      · subst same
        exact logged _ _ (orderly.sound.origin _ _ _ (Net.mem_log_of_front front))
      · change (s.net.replay r o key value).store t (.flag ids v) = some 1 at up
        rw [Net.replay_store_other_key _ _ _ _ _ same] at up
        exact orderly.owned t ids v up

/-- Of two clients that announce one turn, the second one to write overwrites. -/
theorem Orderly.tie_step (orderly : Orderly D s) (valid : D.Valid) (taken : StepCase D s a s')
    (c d : Fin k) (L : ClientGraphPetersonLock) (ends : Ends D c d L) :
    ¬ (s'.net.Shows (D.server c) L.turnKey L.node ∧
      s'.net.Shows (D.server d) L.turnKey L.nbr) := by
  have distinct : (L.node : ℤ) ≠ L.nbr := fun same =>
    ends.distinct valid (Int.ofNat.inj same)
  have wf := orderly.sound.wf
  intro ⟨first, second⟩
  cases taken with
  | quiet e move l' quiet => exact orderly.tie c d L ends ⟨first, second⟩
  | send e w again pc =>
      rw [put_net, send_net] at first second
      by_cases key : L.turnKey = (w.command (s.loc e).node).1
      · rcases write_of_turnKey key.symm with turn | turn
        · rw [turn] at second
          exact Net.not_shows_of_write wf distinct second
        · rw [turn] at first
          change (s.net.write _ L.swap.turnKey L.nbr).Shows _ _ _ at first
          rw [L.turnKey_swap] at first
          exact Net.not_shows_of_write wf distinct.symm first
      · exact orderly.tie c d L ends
          ⟨first.of_write_other wf key, second.of_write_other wf key⟩
  | deliver r o key v front =>
      change (s.net.replay r o key v).Shows _ _ _ at first second
      by_cases toFirst : D.server c = r ∧ L.turnKey = key
      · obtain ⟨server, same⟩ := toFirst
        subst server same
        have stored := first.2
        rw [← L.turnKey_swap] at front
        have value := turn_value_of_front valid orderly.sound ends.swap front
        rw [Net.replay_store_self, value] at stored
        exact distinct (Option.some.inj stored).symm
      · by_cases toSecond : D.server d = r ∧ L.turnKey = key
        · obtain ⟨server, same⟩ := toSecond
          subst server same
          have stored := second.2
          have value := turn_value_of_front valid orderly.sound ends front
          rw [Net.replay_store_self, value] at stored
          exact distinct (Option.some.inj stored)
        · exact orderly.tie c d L ends
            ⟨first.of_replay front toFirst, second.of_replay front toSecond⟩

theorem Orderly.step (orderly : Orderly D s) (valid : D.Valid) (taken : StepCase D s a s') :
    Orderly D s' := by
  have turns := orderly.turns.step taken
  have raised := orderly.raised_step valid taken
  have owned := orderly.owned_step taken
  have tie := orderly.tie_step valid taken
  have sound := orderly.sound.step valid taken
  refine ⟨sound, ?_, turns.answered, turns.stored, raised, owned, tie⟩
  intro c inactive
  cases taken with
  | quiet d move l' quiet =>
      by_cases same : c = d
      · subst same
        rw [put_loc_self] at inactive ⊢
        exact (quiet.calm (orderly.answered c) (orderly.stored c)).inactive inactive
      · rw [put_loc_other s l' same] at inactive ⊢
        exact orderly.inactive c inactive
  | send d w again pc =>
      by_cases same : c = d
      · subst same
        rw [put_loc_self] at inactive
        exact absurd (by simp [Pc.Active]) inactive
      · rw [put_loc_other _ _ same] at inactive ⊢
        exact orderly.inactive c inactive
  | deliver t o key v front => exact orderly.inactive c inactive

end Step

theorem start_calm (c : Fin k) :
    (D.client c).start.locks = [] ∧ (D.client c).start.pc.Answered ∧
      ∀ L, ¬ (D.client c).start.pc.Announced L := by
  unfold Client.start
  split
  · simp [Pc.Answered, Pc.Announced, Pc.Sent]
  · exact (processAt_started _ _).calm

theorem start_turns (store : Key → Option ℤ) : TurnsAnnounced D (D.start store) :=
  ⟨fun c => (start_calm c).2.1, fun c L announced => absurd announced ((start_calm c).2.2 L)⟩

theorem start_orderly (valid : D.Valid) {store : Key → Option ℤ}
    (lowered : ∀ ids v, store (.flag ids v) ≠ some 1) : Orderly D (D.start store) where
  sound := start_sound store
  inactive := fun c _ => (start_calm c).1
  answered := (start_turns store).answered
  stored := (start_turns store).stored
  raised := fun c L _ up => absurd up (lowered _ _)
  owned := fun t ids v up => absurd up (lowered ids v)
  tie := by
    intro c d L ends ⟨first, second⟩
    have same : some (L.node : ℤ) = some (L.nbr : ℤ) := first.2.symm.trans second.2
    exact ends.distinct valid (Int.ofNat.inj (Option.some.inj same))

/-- Client `c` is in the spin loop and the copies at its own server keep it there. -/
def Blocked (D : Deployment k N) (s : State k N) (c : Fin k) : Prop :=
  ∃ L inLoop otherFlag turnVar, (s.loc c).pc = .spin L inLoop otherFlag turnVar ∧
    s.net.store (D.server c) L.lockKey2 = some 1 ∧
    s.net.store (D.server c) L.turnKey = some (L.nodeName : ℤ)

theorem Pc.Raising.lock {pc : Pc} {L : ClientGraphPetersonLock} (raising : pc.Raising L) :
    pc.lock? = some L := by
  unfold Pc.Raising at raising
  split at raising
  · rw [raising.1]; rfl
  · rw [raising]; rfl
  · rw [raising]; rfl
  · rw [raising]; rfl
  · rw [raising]; rfl
  · rw [raising.1]; rfl
  · exact raising.elim

/-- A blocked client waits for a client that has the peer's node in hand. -/
theorem Orderly.awaited {s : State k N} (orderly : Orderly D s)
    (delivered : ∀ t key, ¬ s.net.InFlight t key) {t : Fin N} {L : ClientGraphPetersonLock}
    (up : s.net.store t L.lockKey2 = some 1) :
    ∃ d, D.Owns d L.nbr ∧ (s.loc d).pc.Active ∧ (s.loc d).node = L.nbr ∧
      (s.loc d).Raised L.swap := by
  obtain ⟨d, owns⟩ := orderly.owned t _ _ up
  have agree := (orderly.sound.tracks d L.lockKey2 L.nbr owns rfl).agree t (delivered t _)
  rw [up, ← L.lockKey1_swap] at agree
  have raised := orderly.raised d L.swap owns agree.symm
  have active : (s.loc d).pc.Active := by
    by_contra inactive
    rcases raised with held | raising
    · rw [orderly.inactive d inactive] at held
      cases held
    · have lock := raising.lock
      by_cases finished : (s.loc d).pc = .finished
      · rw [finished] at lock
        cases lock
      · by_cases crashed : (s.loc d).pc = .crashed
        · rw [crashed] at lock
          cases lock
        · exact inactive ⟨finished, crashed⟩
  have node := ((orderly.sound.shape d).lock L.swap (raised.imp_right Pc.Raising.lock)).1
  exact ⟨d, owns, active, node.symm, raised⟩

/-- Two blocked clients on one edge would each hold the turn, so the client waited
for spins on a lock above the node that waits for it. -/
theorem Orderly.above {s : State k N} (orderly : Orderly D s)
    (delivered : ∀ t key, ¬ s.net.InFlight t key)
    (loops : ∀ c v, D.Owns c v → v ∈ D.nbrs v → (D.client c).Internal v) {c : Fin k}
    (blocked : Blocked D s c) (all : ∀ d, (s.loc d).pc.Active → Blocked D s d) :
    ∃ e, (s.loc e).pc.Active ∧ (s.loc c).node < (s.loc e).node := by
  obtain ⟨L, inLoop, f, t, pc, up, turn⟩ := blocked
  have active : (s.loc c).pc.Active := by simp [pc, Pc.Active]
  have shape := orderly.sound.shape c
  obtain ⟨node, outside⟩ := shape.lock L (Or.inr (by rw [pc]; rfl))
  have owns := shape.owns active
  rw [← node] at owns ⊢
  obtain ⟨d, ownsD, activeD, nodeD, raised⟩ := orderly.awaited delivered up
  have apart : c ≠ d := by
    rintro rfl
    have same : L.nbr = L.node := nodeD.symm.trans node.symm
    have adjacent := ((shape.ordered active (by simp [pc])).2 L.nbr).mp
      (by simp [Local.neighbourhood, pc, Pc.current])
    rw [← node, same] at adjacent
    rw [same] at outside
    exact outside (loops c L.node owns adjacent)
  obtain ⟨M, inLoop', f', t', pcD, upD, turnD⟩ := all d activeD
  have nodeM := ((orderly.sound.shape d).lock M (Or.inr (by rw [pcD]; rfl))).1
  rcases raised with held | raising
  · obtain ⟨e, _, activeE, nodeE, _⟩ := orderly.awaited delivered upD
    refine ⟨e, activeE, ?_⟩
    rw [nodeE]
    have order := ((orderly.sound.shape d).ordered activeD (by simp [pcD])).1
    rcases (orderly.sound.shape d).lockRead L.swap held with read | here | crashed
    · exact (List.pairwise_append.mp order).2.2 _ read M.nbr (by simp [pcD, Pc.current])
    · rw [pcD] at here
      cases here
    · rw [pcD] at crashed
      cases crashed
  · rw [pcD] at raising
    change M = L.swap at raising
    subst raising
    refine absurd ⟨⟨delivered _ _, turn⟩, ⟨delivered _ _, ?_⟩⟩
      (orderly.tie c d L ⟨apart, owns, ownsD⟩)
    rw [L.turnKey_swap] at turnD
    exact turnD

/-- In a reachable state with nothing in flight, some unfinished client can go on,
unless a client has a node that is its own neighbour but outside its range. -/
theorem acquisition_deadlock_free (D : Deployment k N) (valid : D.Valid)
    (loops : ∀ c v, D.Owns c v → v ∈ D.nbrs v → (D.client c).Internal v)
    {store : Key → Option ℤ} (lowered : ∀ ids v, store (.flag ids v) ≠ some 1) {s : State k N}
    (run : GuardedRun.Reaches D.step (D.start store) s)
    (delivered : ∀ t o, s.net.seen t o = (s.net.log o).length) {c : Fin k}
    (unfinished : (s.loc c).pc ≠ .finished) :
    ∃ d, (s.loc d).pc ≠ .finished ∧ ¬ Blocked D s d ∧
      ((s.loc c).pc ≠ .crashed → (s.loc d).pc ≠ .crashed) := by
  have orderly : Orderly D s := by
    apply run.invariant (P := Orderly D) (start_orderly valid lowered)
    intro x a y orderly _ taken
    exact orderly.step valid (step_cases taken)
  have quiet : ∀ t key, ¬ s.net.InFlight t key := by
    intro t key ⟨o, v, member⟩
    rw [delivered t o, List.drop_length] at member
    cases member
  by_cases crashed : (s.loc c).pc = .crashed
  · refine ⟨c, unfinished, ?_, fun alive => alive⟩
    intro ⟨L, inLoop, f, t, pc, _⟩
    rw [crashed] at pc
    cases pc
  · by_contra stuck
    have all : ∀ d, (s.loc d).pc.Active → Blocked D s d := by
      intro d active
      by_contra free
      exact stuck ⟨d, active.1, free, fun _ => active.2⟩
    have nonempty : (Finset.univ.filter fun d => (s.loc d).pc.Active).Nonempty :=
      ⟨c, Finset.mem_filter.mpr ⟨Finset.mem_univ c, unfinished, crashed⟩⟩
    obtain ⟨top, member, highest⟩ := Finset.exists_max_image _ (fun d => (s.loc d).node) nonempty
    have activeTop : (s.loc top).pc.Active := (Finset.mem_filter.mp member).2
    obtain ⟨e, activeE, higher⟩ := orderly.above quiet loops (all top activeTop) all
    have bound := highest e (Finset.mem_filter.mpr ⟨Finset.mem_univ e, activeE⟩)
    omega

/-- On two servers client 1 waits for client 0, which is past its spin loop. -/
theorem oneEdge_deadlock_free :
    ∃ s, GuardedRun.Reaches (oneEdge (id : Fin 2 → Fin 2) 1).step
        ((oneEdge (id : Fin 2 → Fin 2) 1).start (oneEdge (id : Fin 2 → Fin 2) 1).loaded) s ∧
      Blocked (oneEdge (id : Fin 2 → Fin 2) 1) s 1 ∧
      ∃ d, (s.loc d).pc ≠ .finished ∧ ¬ Blocked (oneEdge (id : Fin 2 → Fin 2) 1) s d ∧
        ((s.loc 1).pc ≠ .crashed → (s.loc d).pc ≠ .crashed) := by
  obtain ⟨s, run, delivered, pc, up, turn⟩ := GuardedRun.exists_run_of_exec
    (oneEdge (id : Fin 2 → Fin 2) 1).step (fun _ _ => True)
    ((oneEdge (id : Fin 2 → Fin 2) 1).start (oneEdge (id : Fin 2 → Fin 2) 1).loaded)
    (fun s => (∀ t o, s.net.seen t o = (s.net.log o).length) ∧
      (s.loc 1).pc = .spin ⟨1, 0⟩ true none none ∧
      s.net.store 1 (.flag (0, 1) 0) = some 1 ∧ s.net.store 1 (.turn (0, 1)) = some 1)
    [.client 0 (.smembers [1]), .client 0 (.smembers [1]), .client 0 .get,
      .client 1 (.smembers [0]), .client 1 (.smembers [0]), .client 1 .get,
      .client 0 .set, .deliver 1 0, .client 0 (.wait 1),
      .client 1 .set, .deliver 0 1, .client 1 (.wait 1),
      .client 0 .set, .deliver 1 0, .client 0 (.wait 1),
      .client 1 .set, .deliver 0 1, .client 1 (.wait 1),
      .client 0 (.lockGet .otherFlag), .client 1 (.lockGet .otherFlag),
      .client 0 (.lockGet .turnVar), .client 1 (.lockGet .turnVar)] (by decide +kernel)
  refine ⟨s, run, ⟨⟨1, 0⟩, true, none, none, pc, up, turn⟩, ?_⟩
  refine acquisition_deadlock_free _ (oneEdge_valid _ _) ?_ ?_ run delivered (by simp [pc])
  · intro c v _ loop
    simp only [oneEdge] at loop
    split at loop
    · simp_all
    · split at loop <;> simp_all
  · intro ids v
    simp [Deployment.loaded]

/-- One client whose first node, 5, is its own neighbour. -/
def selfLoop : Deployment 1 1 where
  nbrs v := if v = 5 then {5, 6} else if v = 6 then {5} else ∅
  keys := [5, 6]
  firstNode _ := 0
  lastNode _ := 1
  server _ := 0
  required := 0
  plain := 0
  order := .sync

/-- The client waits for its own flag, and no other client is there. -/
theorem selfLoop_deadlock :
    selfLoop.Valid ∧ ∃ s, GuardedRun.Reaches selfLoop.step (selfLoop.start selfLoop.loaded) s ∧
      (∀ t o, s.net.seen t o = (s.net.log o).length) ∧ (s.loc 0).pc ≠ .finished ∧
      ∀ c, Blocked selfLoop s c := by
  refine ⟨⟨by simp [selfLoop], fun c d i _ _ _ _ => Subsingleton.elim c d⟩, ?_⟩
  obtain ⟨s, run, delivered, pc, up, turn⟩ := GuardedRun.exists_run_of_exec selfLoop.step
    (fun _ _ => True) (selfLoop.start selfLoop.loaded)
    (fun s => (∀ t o, s.net.seen t o = (s.net.log o).length) ∧
      (s.loc 0).pc = .spin ⟨5, 5⟩ true none none ∧
      s.net.store 0 (.flag (5, 5) 5) = some 1 ∧ s.net.store 0 (.turn (5, 5)) = some 5)
    [.client 0 (.smembers [6, 5]), .client 0 (.smembers [6, 5]), .client 0 .get,
      .client 0 .set, .client 0 (.wait 0), .client 0 .set, .client 0 (.wait 0),
      .client 0 (.lockGet .otherFlag), .client 0 (.lockGet .turnVar)] (by decide +kernel)
  refine ⟨s, run, delivered, by simp [pc], fun c => ?_⟩
  rw [Subsingleton.elim c 0]
  exact ⟨⟨5, 5⟩, true, none, none, pc, up, turn⟩

end DistributedColoring

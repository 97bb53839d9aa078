import DistributedColoring.Deployment

set_option autoImplicit false

/- What one step of a deployment can do, once and for all. Every invariant below
is a case analysis over `StepCase` and never unfolds the step function. -/
namespace DistributedColoring

open GreedyColoring (IsLeastFree)
open ReplicatedLog

variable {k N : ℕ} {D : Deployment k N}

/-- The results of `readNext`. -/
inductive Resumed (C : Client) (l : Local) : Local → Prop
  | choose (x : ℤ) (empty : l.todo = [])
      (least : IsLeastFree {d | d ∈ l.colors.map Prod.snd} 0 x) :
      Resumed C l { l with pc := .set (.color x) false }
  | inside (u : ℕ) (rest : List ℕ) (split : l.todo = u :: rest) (range : C.Internal u) :
      Resumed C l { l with todo := rest, pc := .getNodeColor u }
  | outside (u : ℕ) (rest : List ℕ) (split : l.todo = u :: rest) (range : ¬ C.Internal u) :
      Resumed C l { l with todo := rest, pc := .getStatus u }

theorem readNext_resumed (C : Client) (l : Local) : Resumed C l (C.readNext l) := by
  unfold Client.readNext
  split
  · rename_i empty
    obtain ⟨x, found, least, _⟩ :=
      getMinimalValueNotInArray_spec (l.colors.map Prod.snd) (show (0 : ℤ) ≤ 1000 by omega)
    rw [found]
    exact .choose x empty least
  · rename_i u rest split
    by_cases range : C.Internal u
    · rw [if_pos range]
      exact .inside u rest split range
    · rw [if_neg range]
      exact .outside u rest split range

/-- What choosing the next neighbour leaves alone. -/
theorem Resumed.keeps {C : Client} {l l' : Local} (resumed : Resumed C l l') :
    l'.colors = l.colors ∧ l'.locks = l.locks ∧ l'.node = l.node ∧
      ∀ u, l'.pc = .getNodeColor u → C.Internal u := by
  cases resumed with
  | choose x empty least => exact ⟨rfl, rfl, rfl, by simp⟩
  | inside v rest split range =>
      refine ⟨rfl, rfl, rfl, ?_⟩
      intro u same
      cases same
      exact range
  | outside v rest split range => exact ⟨rfl, rfl, rfl, by simp⟩

/-- The results of `processAt`. -/
inductive Started (C : Client) (i : ℤ) : Local → Prop
  | node (v : ℕ) (bound : i ≤ C.lastNode) (key : C.keyAt i = some v) :
      Started C i ⟨i, v, [], [], [], .getAllNeighbours⟩
  | crash (bound : i ≤ C.lastNode) (key : C.keyAt i = none) :
      Started C i ⟨i, 0, [], [], [], .crashed⟩
  | finish (bound : C.lastNode < i) : Started C i ⟨i, 0, [], [], [], .finished⟩

theorem processAt_started (C : Client) (i : ℤ) : Started C i (C.processAt i) := by
  unfold Client.processAt
  split
  · rename_i bound
    cases key : C.keyAt i with
    | none => exact .crash bound key
    | some v => exact .node v bound key
  · exact .finish (by omega)

/-- The results of `releaseNext`. -/
inductive Released (C : Client) (l : Local) : Local → Prop
  | unlock (lock : ClientGraphPetersonLock) (rest : List ClientGraphPetersonLock)
      (split : l.locks = lock :: rest) :
      Released C l { l with locks := rest, pc := .set (.release lock) false }
  | next (l' : Local) (empty : l.locks = []) (started : Started C (l.i + 1) l') :
      Released C l l'

theorem releaseNext_released (C : Client) (l : Local) : Released C l (C.releaseNext l) := by
  unfold Client.releaseNext
  split
  · rename_i empty
    exact .next _ empty (processAt_started C (l.i + 1))
  · rename_i lock rest split
    exact .unlock lock rest split

/-- The results of `onLockReads`. -/
inductive Spun (l : Local) (lock : ClientGraphPetersonLock) (otherFlag turnVar : Option (Reply ℤ)) :
    Local → Prop
  | wait (inLoop : Bool) :
      Spun l lock otherFlag turnVar { l with pc := .spin lock inLoop otherFlag turnVar }
  | retry (flag turn : Reply ℤ) (flags : otherFlag = some flag) (turns : turnVar = some turn) :
      Spun l lock otherFlag turnVar { l with pc := .spin lock true none none }
  | enter (flag turn : Reply ℤ) (flags : otherFlag = some flag) (turns : turnVar = some turn)
      (passed : mustWait flag turn lock.nodeName = some false) :
      Spun l lock otherFlag turnVar
        { l with locks := l.locks ++ [lock], pc := .getNodeColor lock.nbr }
  | crash (flag turn : Reply ℤ) (flags : otherFlag = some flag) (turns : turnVar = some turn)
      (failed : mustWait flag turn lock.nodeName = none) :
      Spun l lock otherFlag turnVar { l with pc := .crashed }

theorem onLockReads_spun (l : Local) (lock : ClientGraphPetersonLock) (inLoop : Bool)
    (otherFlag turnVar : Option (Reply ℤ)) :
    Spun l lock otherFlag turnVar (Client.onLockReads l lock inLoop otherFlag turnVar) := by
  unfold Client.onLockReads
  split
  · rename_i flag turn
    split
    · exact .retry flag turn rfl rfl
    · rename_i passed
      exact .enter flag turn rfl rfl passed
    · rename_i failed
      exact .crash flag turn rfl rfl failed
  · exact .wait inLoop

theorem Spun.keeps {l l' : Local} {lock : ClientGraphPetersonLock}
    {otherFlag turnVar : Option (Reply ℤ)} (spun : Spun l lock otherFlag turnVar l') :
    l'.colors = l.colors ∧ l'.node = l.node ∧ (∀ L ∈ l.locks, L ∈ l'.locks) ∧
      ∀ u, l'.pc = .getNodeColor u → u = lock.nbr ∧ lock ∈ l'.locks := by
  cases spun <;> simp +contextual

/-- The replies held after one more GET of the spin loop. -/
inductive LockAnswer (s : State k N) (server : Fin N) (lock : ClientGraphPetersonLock) :
    LockRead → Option (Reply ℤ) → Option (Reply ℤ) →
      Option (Reply ℤ) → Option (Reply ℤ) → Prop
  | otherFlag (turnVar : Option (Reply ℤ)) :
      LockAnswer s server lock .otherFlag none turnVar
        (some (s.get server lock.lockKey2)) turnVar
  | turnVar (otherFlag : Option (Reply ℤ)) :
      LockAnswer s server lock .turnVar otherFlag none
        otherFlag (some (s.get server lock.turnKey))

/-- A step of client `c` that writes nothing: its move and its next local state. -/
inductive Quiet (D : Deployment k N) (s : State k N) (c : Fin k) : Move → Local → Prop
  | neighbours (reply : List ℕ) (pc : (s.loc c).pc = .getAllNeighbours)
      (members : D.IsMembers (s.loc c).node reply) :
      Quiet D s c (.smembers reply)
        { s.loc c with todo := sortNeighbours reply, pc := .checkBoundaryNode }
  | boundary (reply : List ℕ) (l' : Local) (pc : (s.loc c).pc = .checkBoundaryNode)
      (resumed : Resumed (D.client c) (s.loc c) l') : Quiet D s c (.smembers reply) l'
  | mustLock (u : ℕ) (pc : (s.loc c).pc = .getStatus u)
      (status : getStatus (s.get (D.server c) (.status u)) = 0) :
      Quiet D s c .get { s.loc c with pc := .set (.flag ⟨(s.loc c).node, u⟩) false }
  | skipLock (u : ℕ) (pc : (s.loc c).pc = .getStatus u)
      (status : getStatus (s.get (D.server c) (.status u)) ≠ 0) :
      Quiet D s c .get { s.loc c with pc := .getNodeColor u }
  | color (u : ℕ) (l' : Local) (pc : (s.loc c).pc = .getNodeColor u)
      (resumed : Resumed (D.client c)
        { s.loc c with colors := (s.loc c).colors ++
            [(u, getNodeColor (s.get (D.server c) (.color u)))] } l') : Quiet D s c .get l'
  | resend (w : Write) (acks : ℕ) (pc : (s.loc c).pc = .wait w) :
      Quiet D s c (.wait acks) { s.loc c with pc := .set w true }
  | written (w : Write) (acks : ℕ) (pc : (s.loc c).pc = .wait w) (enough : D.required ≤ acks)
      (bound : acks ≤ D.plain + s.caughtUp c (D.server c)) :
      Quiet D s c (.wait acks) ((D.client c).written (s.loc c) w)
  | read (lock : ClientGraphPetersonLock) (inLoop : Bool) (r : LockRead)
      (oldFlag oldTurn newFlag newTurn : Option (Reply ℤ))
      (pc : (s.loc c).pc = .spin lock inLoop oldFlag oldTurn)
      (answer : LockAnswer s (D.server c) lock r oldFlag oldTurn newFlag newTurn) :
      Quiet D s c (.lockGet r) (Client.onLockReads (s.loc c) lock inLoop newFlag newTurn)

/-- Every step a deployment can take. -/
inductive StepCase (D : Deployment k N) (s : State k N) : Action k N → State k N → Prop
  | quiet (c : Fin k) (move : Move) (l' : Local) (quiet : Quiet D s c move l') :
      StepCase D s (.client c move) (s.put c l')
  | send (c : Fin k) (w : Write) (again : Bool) (pc : (s.loc c).pc = .set w again) :
      StepCase D s (.client c .set)
        ((s.send c (D.server c) w again).put c { s.loc c with pc := .wait w })
  | deliver (t o : Fin N) (key : Key) (v : ℤ)
      (front : (s.net.log o).drop (s.net.seen t o) =
        (key, v) :: (s.net.log o).drop (s.net.seen t o + 1)) :
      StepCase D s (.deliver t o) { s with net := s.net.replay t o key v }

/-- A client either sends a SET or moves without one. -/
theorem clientMove_cases {s : State k N} {c : Fin k} {move : Move} {l' : Local}
    {sent : Option (Write × Bool)}
    (taken : D.clientMove c (s.loc c) (s.get (D.server c))
      (D.plain + s.caughtUp c (D.server c)) move = some (l', sent)) :
    (sent = none ∧ Quiet D s c move l') ∨
      ∃ w again, sent = some (w, again) ∧ move = .set ∧ (s.loc c).pc = .set w again ∧
        l' = { s.loc c with pc := .wait w } := by
  unfold Deployment.clientMove at taken
  split at taken
  · rename_i reply pc
    split at taken
    · rename_i members
      cases taken
      exact Or.inl ⟨rfl, .neighbours reply pc members⟩
    · cases taken
  · rename_i reply pc
    split at taken
    · cases taken
      exact Or.inl ⟨rfl, .boundary reply _ pc (readNext_resumed _ _)⟩
    · cases taken
  · rename_i u pc
    cases taken
    unfold Client.onStatus
    split
    · rename_i status
      exact Or.inl ⟨rfl, .mustLock u pc status⟩
    · rename_i status
      exact Or.inl ⟨rfl, .skipLock u pc status⟩
  · rename_i u pc
    cases taken
    exact Or.inl ⟨rfl, .color u _ pc (readNext_resumed _ _)⟩
  · rename_i w again pc
    cases taken
    exact Or.inr ⟨w, again, rfl, rfl, pc, rfl⟩
  · rename_i w acks pc
    split at taken
    · rename_i bound
      cases taken
      unfold Client.onWait
      dsimp only
      split
      · exact Or.inl ⟨rfl, .resend w acks pc⟩
      · rename_i enough
        exact Or.inl ⟨rfl, .written w acks pc (Nat.le_of_not_lt enough) bound⟩
    · cases taken
  · rename_i lock inLoop turnVar pc
    split at taken
    · cases taken
      exact Or.inl ⟨rfl, .read lock inLoop _ _ _ _ _ pc (.otherFlag turnVar)⟩
    · cases taken
  · rename_i lock inLoop otherFlag pc
    split at taken
    · cases taken
      exact Or.inl ⟨rfl, .read lock inLoop _ _ _ _ _ pc (.turnVar otherFlag)⟩
    · cases taken
  · cases taken

theorem clientStep_cases {s s' : State k N} {c : Fin k} {move : Move}
    (taken : D.clientStep s c move = some s') : StepCase D s (.client c move) s' := by
  unfold Deployment.clientStep at taken
  dsimp only at taken
  split at taken
  · rename_i l moved
    cases taken
    rcases clientMove_cases moved with ⟨_, quiet⟩ | ⟨w, again, sent, _⟩
    · exact .quiet c _ l quiet
    · cases sent
  · rename_i l w again moved
    cases taken
    rcases clientMove_cases moved with ⟨sent, _⟩ | ⟨w, again, sent, kind, pc, result⟩
    · cases sent
    · cases sent
      subst kind result
      exact .send c w again pc
  · cases taken

theorem step_cases {s s' : State k N} {a : Action k N} (taken : D.step s a = some s') :
    StepCase D s a s' := by
  cases a with
  | client c move => exact clientStep_cases taken
  | deliver t o =>
      obtain ⟨net, delivered, same⟩ := Option.map_eq_some_iff.mp taken
      obtain ⟨key, v, front, result⟩ := Net.deliver_cases delivered
      rw [← same, result]
      exact .deliver t o key v front

@[simp] theorem put_loc_self (s : State k N) (c : Fin k) (l : Local) : (s.put c l).loc c = l := by
  simp [State.put]

theorem put_loc_other (s : State k N) {c d : Fin k} (l : Local) (other : d ≠ c) :
    (s.put c l).loc d = s.loc d := by
  simp [State.put, other]

@[simp] theorem put_net (s : State k N) (c : Fin k) (l : Local) : (s.put c l).net = s.net := rfl

@[simp] theorem put_mark (s : State k N) (c : Fin k) (l : Local) : (s.put c l).mark = s.mark := rfl

@[simp] theorem put_history (s : State k N) (c : Fin k) (l : Local) :
    (s.put c l).history = s.history := rfl

@[simp] theorem send_loc (s : State k N) (c : Fin k) (server : Fin N) (w : Write) (again : Bool) :
    (s.send c server w again).loc = s.loc := rfl

@[simp] theorem send_net (s : State k N) (c : Fin k) (server : Fin N) (w : Write) (again : Bool) :
    (s.send c server w again).net =
      s.net.write server (w.command (s.loc c).node).1 (w.command (s.loc c).node).2 := rfl

end DistributedColoring

import DistributedColoring.FailSafe

set_option autoImplicit false

/- A call of `process_node` as a function of what becomes of its commands. `Outcomes` assigns a
result to every command that the call can send. -/
namespace DistributedColoring

open GuardedRun (Run)

/-- The results of the commands. The SETs of one `write_with_wait` and the WAITs after them are
numbered by the turns of its loop, the GETs of `acquire_lock` by the tests of its loop. -/
structure Outcomes where
  neighbours : Reply (List ℕ)
  boundary : Reply (List ℕ)
  status : ℕ → Reply ℤ
  set : Write → ℕ → Reply Unit
  wait : Write → ℕ → Reply ℕ
  otherFlag : ClientGraphPetersonLock → ℕ → Reply ℤ
  turnVar : ClientGraphPetersonLock → ℕ → Reply ℤ
  color : ℕ → Reply ℤ

/-- The second of the two GETs before a test of the spin loop. -/
def Pc.Testing (lock : ClientGraphPetersonLock) : Pc → Prop
  | .spin lock' _ otherFlag turnVar => lock' = lock ∧ (otherFlag ≠ none ∨ turnVar ≠ none)
  | _ => False

instance (lock : ClientGraphPetersonLock) (pc : Pc) : Decidable (pc.Testing lock) := by
  unfold Pc.Testing
  split <;> infer_instance

namespace Call

variable (s : Call)

/-- The turns of the loop of `write_with_wait` that are over. -/
def turns (w : Write) : ℕ := s.trace.countP fun e => e.1 = .wait w

/-- The tests of the spin loop that are over. -/
def tests (lock : ClientGraphPetersonLock) : ℕ := s.trace.countP fun e => e.1.Testing lock

/-- The call goes on at `l` after an answer. -/
def after (l : Local) (a : Answer) : Call := ⟨l, s.trace ++ [(s.loc.pc, a)]⟩

end Call

namespace Outcomes

variable (o : Outcomes) (C : Client)

/-- The answer to the command that the call waits for, up to its colour SET. -/
def answer (s : Call) : Option Answer :=
  match s.loc.pc with
  | .getAllNeighbours => some (.smembers o.neighbours)
  | .checkBoundaryNode => some (.smembers o.boundary)
  | .getStatus nbr => some (.get (o.status nbr))
  | .set (.color _) _ => none
  | .set w _ => some (.set (o.set w (s.turns w)))
  | .wait w => some (.wait (o.wait w (s.turns w)))
  -- `other_flag` is read first before the loop, `turn_var_new` first inside it
  | .spin lock false none none => some (.get (o.otherFlag lock (s.tests lock)))
  | .spin lock false (some _) none => some (.get (o.turnVar lock (s.tests lock)))
  | .spin lock true none none => some (.get (o.turnVar lock (s.tests lock)))
  | .spin lock true none (some _) => some (.get (o.otherFlag lock (s.tests lock)))
  | .getNodeColor nbr => some (.get (o.color nbr))
  | _ => none

/-- A call of `process_node` in which the commands have these results. -/
abbrev Leads (i : ℤ) (node : ℕ) (s : Call) : Prop :=
  Run (Call.step C) (fun s a => o.answer s = some a) (Call.start i node) s

/-- SMEMBERS returns the neighbours, if it returns members at all. -/
def Lists (nbrs : Finset ℕ) : Prop :=
  ∀ reply, o.neighbours = .value reply → reply.Nodup ∧ reply.toFinset = nbrs

/-- `read_color_of_neighbors` takes the lock of this neighbour. -/
def Locks (nbr : ℕ) : Prop := ¬ C.Internal nbr ∧ getStatus (o.status nbr) = 0

/-- The loop of `write_with_wait` goes on after turn `m`. -/
def Repeats (w : Write) (m : ℕ) : Prop :=
  o.set w m ≠ .null ∧ o.wait w m ≠ .null ∧ acknowledgedReplicas (o.wait w m) < C.required

def Ends (w : Write) : Prop := ∃ n, ¬ o.Repeats C w n

/-- A turn that the loop comes to has its SET accepted. -/
def Accepts (w : Write) : Prop := ∃ n, o.set w n = .value () ∧ ∀ m < n, o.Repeats C w m

/-- The condition of the spin loop at test `r`. -/
def mustWait (lock : ClientGraphPetersonLock) (r : ℕ) : Option Bool :=
  DistributedColoring.mustWait (o.otherFlag lock r) (o.turnVar lock r) lock.nodeName

def Enters (lock : ClientGraphPetersonLock) : Prop :=
  ∃ r, o.mustWait lock r = some false ∧ ∀ q < r, o.mustWait lock q = some true

/-- What brings the call to its colour SET: no crash and no endless loop. Whether a SET is
accepted and a colour found does not matter. -/
structure Goes (node : ℕ) (nbrs : Finset ℕ) : Prop where
  boundary : o.boundary ≠ .null
  locks : ∀ reply, o.neighbours = .value reply → ∀ u ∈ nbrs, o.Locks C u →
    o.Ends C (.flag ⟨node, u⟩) ∧ o.Ends C (.turn ⟨node, u⟩) ∧ o.Enters ⟨node, u⟩

/-- The neighbours, their colours and the locks on them are really had. -/
structure Safe (node : ℕ) (nbrs : Finset ℕ) : Prop where
  neighbours : nbrs = ∅ ∨ ∃ reply, o.neighbours = .value reply
  colors : ∀ u ∈ nbrs, ∃ x, o.color u = .value x
  locks : ∀ u ∈ nbrs, o.Locks C u → o.Accepts C (.flag ⟨node, u⟩) ∧ o.Accepts C (.turn ⟨node, u⟩)

end Outcomes

variable {C : Client} {o : Outcomes} {i : ℤ} {node : ℕ} {nbrs : Finset ℕ} {s : Call}

section After

variable (l : Local) (a : Answer)

@[simp] theorem after_loc : (s.after l a).loc = l := rfl

@[simp] theorem after_trace : (s.after l a).trace = s.trace ++ [(s.loc.pc, a)] := rfl

theorem turns_after_wait {w : Write} (pc : s.loc.pc = .wait w) :
    (s.after l a).turns w = s.turns w + 1 := by
  simp [Call.turns, pc]

theorem turns_after {w : Write} (pc : s.loc.pc ≠ .wait w) : (s.after l a).turns w = s.turns w := by
  simp [Call.turns, pc]

theorem tests_after_testing {lock : ClientGraphPetersonLock} (pc : s.loc.pc.Testing lock) :
    (s.after l a).tests lock = s.tests lock + 1 := by
  simp [Call.tests, pc]

theorem tests_after {lock : ClientGraphPetersonLock} (pc : ¬ s.loc.pc.Testing lock) :
    (s.after l a).tests lock = s.tests lock := by
  simp [Call.tests, pc]

theorem accepted_after {w : Write} : (s.after l a).Accepted w ↔
    s.Accepted w ∨ (∃ again, s.loc.pc = .set w again) ∧ a = .set (.value ()) := by
  simp [Call.Accepted, exists_or, eq_comm]

end After

/-- What a spinning client holds are the results of its test. -/
def ReadsFrom (o : Outcomes) (s : Call) : Prop :=
  ∀ lock inLoop otherFlag turnVar, s.loc.pc = .spin lock inLoop otherFlag turnVar →
    (∀ flag, otherFlag = some flag → flag = o.otherFlag lock (s.tests lock)) ∧
      ∀ turn, turnVar = some turn → turn = o.turnVar lock (s.tests lock)

/-- Where a call goes on, in terms of the outcomes. -/
inductive Taken (C : Client) (o : Outcomes) (s : Call) : Local → Prop
  | listed (reply : List ℕ) (pc : s.loc.pc = .getAllNeighbours)
      (found : o.neighbours = .value reply) :
      Taken C o s { s.loc with todo := sortNeighbours reply, pc := .checkBoundaryNode }
  | unlisted (pc : s.loc.pc = .getAllNeighbours) (failed : ∀ reply, o.neighbours ≠ .value reply) :
      Taken C o s { s.loc with todo := [], pc := .checkBoundaryNode }
  | boundary (l' : Local) (pc : s.loc.pc = .checkBoundaryNode) (answered : o.boundary ≠ .null)
      (resumed : Resumed C s.loc l') : Taken C o s l'
  | mustLock (u : ℕ) (pc : s.loc.pc = .getStatus u) (zero : getStatus (o.status u) = 0) :
      Taken C o s { s.loc with pc := .set (.flag ⟨s.loc.node, u⟩) false }
  | skipLock (u : ℕ) (pc : s.loc.pc = .getStatus u) (nonzero : getStatus (o.status u) ≠ 0) :
      Taken C o s { s.loc with pc := .getNodeColor u }
  | color (u : ℕ) (l' : Local) (pc : s.loc.pc = .getNodeColor u)
      (resumed : Resumed C
        { s.loc with colors := s.loc.colors ++ [(u, getNodeColor (o.color u))] } l') :
      Taken C o s l'
  | sent (w : Write) (again : Bool) (pc : s.loc.pc = .set w again)
      (arrived : o.set w (s.turns w) ≠ .null) : Taken C o s { s.loc with pc := .wait w }
  | lost (w : Write) (again : Bool) (pc : s.loc.pc = .set w again)
      (null : o.set w (s.turns w) = .null) : Taken C o s (C.written s.loc w)
  | resend (w : Write) (pc : s.loc.pc = .wait w) (answered : o.wait w (s.turns w) ≠ .null)
      (few : acknowledgedReplicas (o.wait w (s.turns w)) < C.required) :
      Taken C o s { s.loc with pc := .set w true }
  | written (w : Write) (pc : s.loc.pc = .wait w) (done : o.wait w (s.turns w) ≠ .null →
      C.required ≤ acknowledgedReplicas (o.wait w (s.turns w))) : Taken C o s (C.written s.loc w)
  | read (lock : ClientGraphPetersonLock) (inLoop : Bool) (otherFlag turnVar : Option (Reply ℤ))
      (pc : s.loc.pc = .spin lock inLoop none none)
      (flags : ∀ flag, otherFlag = some flag → flag = o.otherFlag lock (s.tests lock))
      (turns : ∀ turn, turnVar = some turn → turn = o.turnVar lock (s.tests lock)) :
      Taken C o s { s.loc with pc := .spin lock inLoop otherFlag turnVar }
  | retry (lock : ClientGraphPetersonLock) (pc : s.loc.pc.Testing lock)
      (waits : o.mustWait lock (s.tests lock) = some true) :
      Taken C o s { s.loc with pc := .spin lock true none none }
  | enter (lock : ClientGraphPetersonLock) (pc : s.loc.pc.Testing lock)
      (passes : o.mustWait lock (s.tests lock) = some false) :
      Taken C o s
        { s.loc with locks := s.loc.locks ++ [lock], pc := .getNodeColor lock.nbr }
  | crash : Taken C o s { s.loc with pc := .crashed }

theorem onLockReads_taken {lock : ClientGraphPetersonLock} (testing : s.loc.pc.Testing lock)
    {flag turn : Reply ℤ} (inLoop : Bool) (flags : flag = o.otherFlag lock (s.tests lock))
    (turns : turn = o.turnVar lock (s.tests lock)) :
    Taken C o s (Client.onLockReads s.loc lock inLoop (some flag) (some turn)) := by
  subst flags turns
  unfold Client.onLockReads
  dsimp only
  split
  · rename_i waits
    exact .retry lock testing waits
  · rename_i passes
    exact .enter lock testing passes
  · exact .crash

theorem taken_of_step {s' : Call} {a : Answer} (held : ReadsFrom o s) (given : o.answer s = some a)
    (taken : Call.step C s a = some s') : ∃ l', Taken C o s l' ∧ s' = s.after l' a := by
  obtain ⟨l', answered, rfl⟩ := Option.map_eq_some_iff.mp taken
  refine ⟨l', ?_, rfl⟩
  unfold Outcomes.answer at given
  split at given <;> cases given
  all_goals
    rename_i pc
    simp only [Client.answer, pc, Option.some.injEq] at answered
    subst answered
  · cases found : o.neighbours with
    | value reply => exact .listed reply pc found
    | null => exact .unlisted pc (by simp [found])
    | nil => exact .unlisted pc (by simp [found])
    | error msg => exact .unlisted pc (by simp [found])
  · cases answered : o.boundary with
    | null => exact .crash
    | value reply => exact .boundary _ pc (by simp [answered]) (readNext_resumed C s.loc)
    | nil => exact .boundary _ pc (by simp [answered]) (readNext_resumed C s.loc)
    | error msg => exact .boundary _ pc (by simp [answered]) (readNext_resumed C s.loc)
  · unfold Client.onStatus
    split
    · rename_i zero
      exact .mustLock _ pc zero
    · rename_i nonzero
      exact .skipLock _ pc nonzero
  · rename_i w again _
    cases reply : o.set w (s.turns w) with
    | null => exact .lost w again pc reply
    | value x => exact .sent w again pc (by simp [reply])
    | nil => exact .sent w again pc (by simp [reply])
    | error msg => exact .sent w again pc (by simp [reply])
  · rename_i w
    unfold Client.onWait
    split
    · rename_i null
      exact .written w pc fun answered => absurd null answered
    · rename_i answered
      split
      · rename_i few
        exact .resend w pc answered few
      · rename_i enough
        exact .written w pc fun _ => Nat.le_of_not_lt enough
  · rename_i lock
    exact .read lock false _ _ pc (by simp [eq_comm]) (by simp)
  · rename_i lock flag
    have same := (held lock false _ _ pc).1 flag rfl
    exact onLockReads_taken (by simp [pc, Pc.Testing]) false same rfl
  · rename_i lock
    exact .read lock true _ _ pc (by simp) (by simp [eq_comm])
  · rename_i lock turn
    have same := (held lock true _ _ pc).2 turn rfl
    exact onLockReads_taken (by simp [pc, Pc.Testing]) true rfl same
  · rename_i u
    exact .color u _ pc (readNext_resumed C _)

/-- The answers are among those that `Call.Outcome` allows. -/
theorem outcome_of_answer {a : Answer} (lists : o.Lists nbrs) (given : o.answer s = some a) :
    Call.Outcome nbrs s a := by
  unfold Call.Outcome
  split
  · rename_i reply pc
    simp only [Outcomes.answer, pc, Option.some.injEq, Answer.smembers.injEq] at given
    exact lists reply given
  · rename_i pc
    simp [Outcomes.answer, pc] at given
  · trivial

/-- The answers in the trace are those of the outcomes. -/
structure TraceFrom (o : Outcomes) (s : Call) : Prop where
  first : s.loc.pc = .getAllNeighbours → s.trace = []
  listed : s.loc.pc ≠ .getAllNeighbours → (s.Listed ↔ ∃ reply, o.neighbours = .value reply)
  colors : ∀ u reply, (.getNodeColor u, .get reply) ∈ s.trace → reply = o.color u

theorem TraceFrom.step {l' : Local} {a : Answer} (answers : TraceFrom o s)
    (given : o.answer s = some a) (started : l'.pc ≠ .getAllNeighbours) :
    TraceFrom o (s.after l' a) := by
  refine ⟨fun first => absurd first started, fun _ => ?_, ?_⟩
  · by_cases pc : s.loc.pc = .getAllNeighbours
    · simp only [Outcomes.answer, pc, Option.some.injEq] at given
      simp [Call.Listed, answers.first pc, pc, ← given, eq_comm]
    · exact (listed_append pc).trans (answers.listed pc)
  · intro u reply member
    rcases List.mem_append.mp member with old | new
    · exact answers.colors u reply old
    · obtain ⟨pc, same⟩ := Prod.mk.inj (List.mem_singleton.mp new)
      simp only [Outcomes.answer, ← pc, Option.some.injEq, ← same, Answer.get.injEq] at given
      exact given.symm

/-- The locks taken are those of the neighbours read. -/
structure BookedBetween (C : Client) (o : Outcomes) (node : ℕ) (l : Local) : Prop where
  own : l.node = node
  locks : ∀ lock, lock ∈ l.locks ↔
    lock.node = node ∧ lock.nbr ∈ l.visited ∧ o.Locks C lock.nbr

/-- Which locks a call has taken and takes. -/
structure Booked (C : Client) (o : Outcomes) (node : ℕ) (l : Local) : Prop where
  own : l.node = node
  boundary : l.pc ≠ .getAllNeighbours → l.pc ≠ .checkBoundaryNode → o.boundary ≠ .null
  locks : ∀ lock, lock ∈ l.locks ↔ lock.node = node ∧
    (lock.nbr ∈ l.visited ∨ l.pc = .getNodeColor lock.nbr) ∧ o.Locks C lock.nbr
  stage : ∀ lock, l.pc.lock? = some lock → lock.node = node ∧ o.Locks C lock.nbr
  outer : ∀ u, l.pc = .getStatus u → ¬ C.Internal u

section Booked

variable {l l' : Local}

theorem Booked.settled (booked : Booked C o node l) (unread : ∀ u, l.pc ≠ .getNodeColor u) :
    BookedBetween C o node l :=
  ⟨booked.own, fun lock => by rw [booked.locks, or_iff_left (unread _)]⟩

theorem Booked.settled_color (booked : Booked C o node l) {u : ℕ} (pc : l.pc = .getNodeColor u)
    (x : ℤ) : BookedBetween C o node { l with colors := l.colors ++ [(u, x)] } := by
  refine ⟨booked.own, fun lock => ?_⟩
  rw [booked.locks]
  simp [Local.visited, pc, eq_comm]

theorem BookedBetween.booked (settled : BookedBetween C o node l) (todo : List ℕ) {pc : Pc}
    (boundary : pc ≠ .checkBoundaryNode → o.boundary ≠ .null)
    (free : ∀ u, pc = .getNodeColor u → ¬ o.Locks C u)
    (stage : ∀ lock, pc.lock? = some lock → lock.node = node ∧ o.Locks C lock.nbr)
    (outer : ∀ u, pc = .getStatus u → ¬ C.Internal u) :
    Booked C o node { l with todo, pc } := by
  refine ⟨settled.own, fun _ => boundary, fun lock => ?_, stage, outer⟩
  rw [settled.locks]
  constructor
  · rintro ⟨same, visited, locks⟩
    exact ⟨same, .inl visited, locks⟩
  · rintro ⟨same, visited | here, locks⟩
    · exact ⟨same, visited, locks⟩
    · exact absurd locks (free _ here)

theorem Resumed.booked (resumed : Resumed C l l') (settled : BookedBetween C o node l)
    (boundary : o.boundary ≠ .null) : Booked C o node l' := by
  cases resumed with
  | choose x empty least =>
      exact settled.booked _ (fun _ => boundary) (by simp) (by simp [Pc.lock?, Write.lock?])
        (by simp)
  | inside u rest split range =>
      refine settled.booked _ (fun _ => boundary) ?_ (by simp [Pc.lock?]) (by simp)
      rintro v ⟨⟩ locks
      exact locks.1 range
  | outside u rest split range =>
      refine settled.booked _ (fun _ => boundary) (by simp) (by simp [Pc.lock?]) ?_
      rintro v ⟨⟩
      exact range

theorem Pc.Testing.eq_spin {lock : ClientGraphPetersonLock} {pc : Pc} (testing : pc.Testing lock) :
    ∃ inLoop otherFlag turnVar, pc = .spin lock inLoop otherFlag turnVar := by
  unfold Pc.Testing at testing
  split at testing
  · obtain ⟨rfl, _⟩ := testing
    exact ⟨_, _, _, rfl⟩
  · exact testing.elim

/-- A step inside `acquire_lock` of one lock. -/
theorem Booked.acquiring (booked : Booked C o node l) {lock : ClientGraphPetersonLock}
    (here : l.pc.lock? = some lock) {pc : Pc} (there : pc.lock? = some lock) :
    Booked C o node { l with pc } := by
  have unread : ∀ u, l.pc ≠ .getNodeColor u := by
    intro u same
    simp [same, Pc.lock?] at here
  refine (booked.settled unread).booked l.todo (fun _ => booked.boundary ?_ ?_) ?_ ?_ ?_
  · intro same
    simp [same, Pc.lock?] at here
  · intro same
    simp [same, Pc.lock?] at here
  · intro u same
    simp [same, Pc.lock?] at there
  · intro lock' same
    rw [there] at same
    cases same
    exact booked.stage lock here
  · intro u same
    simp [same, Pc.lock?] at there

theorem Booked.written (booked : Booked C o node l) {w : Write} {lock : ClientGraphPetersonLock}
    (locking : w = .flag lock ∨ w = .turn lock) (here : l.pc.lock? = some lock) :
    Booked C o node (C.written l w) := by
  rcases locking with rfl | rfl <;> exact booked.acquiring here rfl

end Booked

/-- Before its colour SET the call writes for the lock in hand. -/
theorem lock?_of_locking {pc : Pc} {w : Write} {lock : ClientGraphPetersonLock}
    (locking : w = .flag lock ∨ w = .turn lock)
    (here : pc = .wait w ∨ ∃ again, pc = .set w again) : pc.lock? = some lock := by
  rcases here with rfl | ⟨again, rfl⟩ <;> rcases locking with rfl | rfl <;> rfl

theorem Booked.step {l' : Local} {a : Answer} (booked : Booked C o node s.loc)
    (inv : Following nbrs s) (outcome : Call.Outcome nbrs s a) (taken : Taken C o s l')
    (alive : l'.pc ≠ .crashed) : Booked C o node l' := by
  cases taken with
  | listed reply pc found =>
      exact (booked.settled (by simp [pc])).booked _ (by simp) (by simp) (by simp [Pc.lock?])
        (by simp)
  | unlisted pc failed =>
      exact (booked.settled (by simp [pc])).booked _ (by simp) (by simp) (by simp [Pc.lock?])
        (by simp)
  | boundary l' pc answered resumed =>
      exact resumed.booked (booked.settled (by simp [pc])) answered
  | mustLock u pc zero =>
      refine (booked.settled (by simp [pc])).booked s.loc.todo
        (fun _ => booked.boundary (by simp [pc]) (by simp [pc])) (by simp) ?_ (by simp)
      rintro lock ⟨⟩
      exact ⟨booked.own, booked.outer u pc, zero⟩
  | skipLock u pc nonzero =>
      refine (booked.settled (by simp [pc])).booked s.loc.todo
        (fun _ => booked.boundary (by simp [pc]) (by simp [pc])) ?_ (by simp [Pc.lock?]) (by simp)
      rintro v ⟨⟩ locks
      exact nonzero locks.2
  | color u l' pc resumed =>
      exact resumed.booked (booked.settled_color pc _)
        (booked.boundary (by simp [pc]) (by simp [pc]))
  | sent w again pc arrived =>
      obtain ⟨lock, locking⟩ := inv.locking outcome (.inr ⟨again, pc⟩)
      exact booked.acquiring (lock?_of_locking locking (.inr ⟨again, pc⟩))
        (lock?_of_locking locking (.inl rfl))
  | lost w again pc null =>
      obtain ⟨lock, locking⟩ := inv.locking outcome (.inr ⟨again, pc⟩)
      exact booked.written locking (lock?_of_locking locking (.inr ⟨again, pc⟩))
  | resend w pc answered few =>
      obtain ⟨lock, locking⟩ := inv.locking outcome (.inl pc)
      exact booked.acquiring (lock?_of_locking locking (.inl pc))
        (lock?_of_locking locking (.inr ⟨true, rfl⟩))
  | written w pc done =>
      obtain ⟨lock, locking⟩ := inv.locking outcome (.inl pc)
      exact booked.written locking (lock?_of_locking locking (.inl pc))
  | read lock inLoop otherFlag turnVar pc flags turns =>
      exact booked.acquiring (by rw [pc]; rfl) rfl
  | retry lock pc waits =>
      obtain ⟨inLoop, otherFlag, turnVar, pc⟩ := pc.eq_spin
      exact booked.acquiring (by rw [pc]; rfl) rfl
  | enter lock pc passes =>
      obtain ⟨inLoop, otherFlag, turnVar, pc⟩ := pc.eq_spin
      obtain ⟨same, locks⟩ := booked.stage lock (by rw [pc]; rfl)
      refine ⟨booked.own, fun _ _ => booked.boundary (by simp [pc]) (by simp [pc]), ?_,
        by simp [Pc.lock?], by simp⟩
      intro lock'
      rw [List.mem_append, booked.locks, List.mem_singleton]
      simp only [pc, reduceCtorEq, or_false, Pc.getNodeColor.injEq]
      constructor
      · rintro (⟨node', visited, locks'⟩ | rfl)
        · exact ⟨node', .inl visited, locks'⟩
        · exact ⟨same, .inr rfl, locks⟩
      · rintro ⟨node', visited | here, locks'⟩
        · exact .inl ⟨node', visited, locks'⟩
        · refine .inr ?_
          cases lock
          cases lock'
          simp_all
  | crash => exact absurd rfl alive

/-- No lock has been taken yet on the neighbour in hand. -/
theorem Booked.notMem_locks (booked : Booked C o node s.loc) (inv : Following nbrs s) {u : ℕ}
    (current : u ∈ s.loc.pc.current) (unread : s.loc.pc ≠ .getNodeColor u) :
    ∀ lock ∈ s.loc.locks, lock.nbr ≠ u := by
  rintro lock member rfl
  have visited := ((booked.locks lock).mp member).2.1.resolve_right unread
  exact (List.nodup_append.mp inv.distinct).2.2 _ visited _
    (List.mem_append_left _ current) rfl

theorem Taken.started {l' : Local} {a : Answer} (taken : Taken C o s l') (inv : Following nbrs s)
    (outcome : Call.Outcome nbrs s a) : l'.pc ≠ .getAllNeighbours := by
  have written : ∀ w, s.loc.pc = .wait w ∨ (∃ again, s.loc.pc = .set w again) →
      (C.written s.loc w).pc ≠ .getAllNeighbours := by
    intro w here
    obtain ⟨lock, rfl | rfl⟩ := inv.locking outcome here <;> simp [Client.written]
  cases taken with
  | boundary l' pc answered resumed => cases resumed <;> simp
  | color u l' pc resumed => cases resumed <;> simp
  | lost w again pc null => exact written w (.inr ⟨again, pc⟩)
  | written w pc done => exact written w (.inl pc)
  | _ => simp

section Writing

/-- How far the loop of `write_with_wait` has come with one write. -/
structure Tried (C : Client) (o : Outcomes) (s : Call) (w : Write) : Prop where
  setting : ∀ again, s.loc.pc = .set w again → (∀ m < s.turns w, o.Repeats C w m) ∧
    (s.Accepted w ↔ ∃ m < s.turns w, o.set w m = .value ())
  waiting : s.loc.pc = .wait w → (∀ m < s.turns w, o.Repeats C w m) ∧
    o.set w (s.turns w) ≠ .null ∧ (s.Accepted w ↔ ∃ m ≤ s.turns w, o.set w m = .value ())
  done : w ∈ s.loc.sent → (∀ again, s.loc.pc ≠ .set w again) → s.loc.pc ≠ .wait w →
    ∃ n, (∀ m < n, o.Repeats C w m) ∧ ¬ o.Repeats C w n ∧
      (s.Accepted w ↔ ∃ m ≤ n, o.set w m = .value ())
  unused : w ∉ s.loc.sent → s.turns w = 0

variable {l' : Local} {a : Answer} {w : Write} {lock : ClientGraphPetersonLock}

theorem Taken.of_set (taken : Taken C o s l') (alive : l'.pc ≠ .crashed) {again : Bool}
    (pc : s.loc.pc = .set w again) :
    o.set w (s.turns w) ≠ .null ∧ l' = { s.loc with pc := .wait w } ∨
      o.set w (s.turns w) = .null ∧ l' = C.written s.loc w := by
  cases taken <;> simp_all [Pc.Testing]

theorem Taken.of_wait (taken : Taken C o s l') (alive : l'.pc ≠ .crashed)
    (pc : s.loc.pc = .wait w) :
    (o.wait w (s.turns w) ≠ .null ∧ acknowledgedReplicas (o.wait w (s.turns w)) < C.required) ∧
        l' = { s.loc with pc := .set w true } ∨
      (o.wait w (s.turns w) ≠ .null →
        C.required ≤ acknowledgedReplicas (o.wait w (s.turns w))) ∧ l' = C.written s.loc w := by
  cases taken <;> simp_all [Pc.Testing]

/-- The caller of `write_with_wait` goes on elsewhere. -/
theorem written_apart (l : Local) (locking : w = .flag lock ∨ w = .turn lock) :
    (∀ again, (C.written l w).pc ≠ .set w again) ∧ (C.written l w).pc ≠ .wait w := by
  rcases locking with rfl | rfl <;> simp [Client.written]

/-- The SET of a turn. -/
theorem Tried.step_set (tried : Tried C o s w) (locking : w = .flag lock ∨ w = .turn lock)
    (inv' : Following nbrs (s.after l' a)) (given : o.answer s = some a) (taken : Taken C o s l')
    {again : Bool} (pc : s.loc.pc = .set w again) : Tried C o (s.after l' a) w := by
  obtain ⟨earlier, accepted⟩ := tried.setting again pc
  have same : a = .set (o.set w (s.turns w)) := by
    rcases locking with rfl | rfl <;> simpa [Outcomes.answer, pc, eq_comm] using given
  have turns : (s.after l' a).turns w = s.turns w := turns_after l' a (by simp [pc])
  have accepted' : (s.after l' a).Accepted w ↔ ∃ m ≤ s.turns w, o.set w m = .value () := by
    simp only [accepted_after, accepted, same, ← Nat.lt_succ_iff, Nat.exists_lt_succ_right]
    simp [pc]
  have sent : w ∈ l'.sent := (inv'.sets w).mp ((sets_append w).mpr (.inr ⟨again, pc⟩))
  rcases taken.of_set inv'.reading.1.2 pc with ⟨arrived, rfl⟩ | ⟨null, rfl⟩
  · exact ⟨by simp, fun _ => by rw [turns]; exact ⟨earlier, arrived, accepted'⟩,
      fun _ _ here => absurd rfl here, fun none => absurd sent none⟩
  · obtain ⟨unset, unwaited⟩ := written_apart (C := C) s.loc locking
    exact ⟨fun again here => absurd here (unset again), fun here => absurd here unwaited,
      fun _ _ _ => ⟨s.turns w, earlier, fun repeats => repeats.1 null, accepted'⟩,
      fun none => absurd sent none⟩

/-- The WAIT of a turn. -/
theorem Tried.step_wait (tried : Tried C o s w) (locking : w = .flag lock ∨ w = .turn lock)
    (inv : Following nbrs s) (inv' : Following nbrs (s.after l' a)) (taken : Taken C o s l')
    (pc : s.loc.pc = .wait w) : Tried C o (s.after l' a) w := by
  obtain ⟨earlier, arrived, accepted⟩ := tried.waiting pc
  have turns : (s.after l' a).turns w = s.turns w + 1 := turns_after_wait l' a pc
  have accepted' : (s.after l' a).Accepted w ↔ ∃ m ≤ s.turns w, o.set w m = .value () := by
    rw [accepted_after, accepted]
    simp [pc]
  have sent : w ∈ l'.sent := by
    refine (inv'.sets w).mp ((sets_append w).mpr (.inl ((inv.sets w).mpr ?_)))
    simp [Local.sent, pc, Pc.sent]
  rcases taken.of_wait inv'.reading.1.2 pc with ⟨again, rfl⟩ | ⟨last, rfl⟩
  · refine ⟨fun _ _ => ?_, by simp, fun _ here => absurd rfl (here true),
      fun none => absurd sent none⟩
    rw [turns, accepted']
    refine ⟨fun m less => ?_, by simp only [Nat.lt_succ_iff]⟩
    rcases Nat.lt_succ_iff_lt_or_eq.mp less with before | rfl
    · exact earlier m before
    · exact ⟨arrived, again⟩
  · obtain ⟨unset, unwaited⟩ := written_apart (C := C) s.loc locking
    refine ⟨fun again here => absurd here (unset again), fun here => absurd here unwaited,
      fun _ _ _ => ⟨s.turns w, earlier, ?_, accepted'⟩, fun none => absurd sent none⟩
    rintro ⟨_, answered, few⟩
    exact absurd few (Nat.not_lt.mpr (last answered))

theorem mem_sent_iff (w : Write) : w ∈ s.loc.sent ↔
    (∃ lock ∈ s.loc.locks, w = .flag lock ∨ w = .turn lock) ∨ w ∈ s.loc.pc.sent := by
  simp [Local.sent]

theorem Resumed.set_color {l : Local} (resumed : Resumed C l l') {again : Bool}
    (next : l'.pc = .set w again) : ∃ x, w = .color x := by
  cases resumed with
  | choose x empty least =>
      cases next
      exact ⟨x, rfl⟩
  | inside u rest split range => cases next
  | outside u rest split range => cases next

/-- Where `acquire_lock` begins a write. -/
theorem Taken.begins (taken : Taken C o s l') (inv : Following nbrs s)
    (outcome : Call.Outcome nbrs s a) (locking : w = .flag lock ∨ w = .turn lock) {again : Bool}
    (next : l'.pc = .set w again) (here : s.loc.pc ≠ .wait w) :
    (∃ u, s.loc.pc = .getStatus u ∧ w = .flag ⟨s.loc.node, u⟩) ∨
      ∃ L, w = .turn L ∧
        (s.loc.pc = .wait (.flag L) ∨ ∃ again, s.loc.pc = .set (.flag L) again) := by
  have begun : ∀ v, (C.written s.loc v).pc = .set w again →
      (s.loc.pc = .wait v ∨ ∃ again, s.loc.pc = .set v again) →
      ∃ L, w = .turn L ∧
        (s.loc.pc = .wait (.flag L) ∨ ∃ again, s.loc.pc = .set (.flag L) again) := by
    intro v goes at_
    obtain ⟨L, rfl | rfl⟩ := inv.locking outcome at_
    · cases goes
      exact ⟨L, rfl, at_⟩
    · cases goes
  have uncolored : ∀ x, w ≠ .color x := by
    rcases locking with rfl | rfl <;> simp
  cases taken with
  | mustLock u pc zero =>
      cases next
      exact .inl ⟨u, pc, rfl⟩
  | lost v again' pc null => exact .inr (begun v next (.inr ⟨again', pc⟩))
  | written v pc done => exact .inr (begun v next (.inl pc))
  | resend v pc answered few =>
      cases next
      exact absurd pc here
  | boundary l' pc answered resumed =>
      obtain ⟨x, same⟩ := resumed.set_color next
      exact absurd same (uncolored x)
  | color u l' pc resumed =>
      obtain ⟨x, same⟩ := resumed.set_color next
      exact absurd same (uncolored x)
  | listed => cases next
  | unlisted => cases next
  | skipLock => cases next
  | sent => cases next
  | read => cases next
  | retry => cases next
  | enter => cases next
  | crash => cases next

/-- A write is begun only once. -/
theorem Taken.fresh (taken : Taken C o s l') (booked : Booked C o node s.loc)
    (inv : Following nbrs s) (outcome : Call.Outcome nbrs s a)
    (locking : w = .flag lock ∨ w = .turn lock) {again : Bool} (next : l'.pc = .set w again)
    (here : s.loc.pc ≠ .wait w) : w ∉ s.loc.sent := by
  rw [mem_sent_iff]
  rcases taken.begins inv outcome locking next here with ⟨u, pc, rfl⟩ | ⟨L, rfl, pc⟩
  · have apart := booked.notMem_locks inv (u := u) (by simp [pc, Pc.current]) (by simp [pc])
    rintro (⟨lock', member, same | same⟩ | same)
    · cases same
      exact apart _ member rfl
    · cases same
    · simp [pc, Pc.sent] at same
  · have current : L.nbr ∈ s.loc.pc.current ∧ s.loc.pc ≠ .getNodeColor L.nbr ∧
        .turn L ∉ s.loc.pc.sent := by
      rcases pc with pc | ⟨again', pc⟩
      · simp [pc, Pc.current, Write.current, Pc.sent, Write.earlier]
      · cases again' <;> simp [pc, Pc.current, Write.current, Pc.sent, Write.earlier]
    have apart := booked.notMem_locks inv current.1 current.2.1
    rintro (⟨lock', member, same | same⟩ | same)
    · cases same
    · cases same
      exact apart _ member rfl
    · exact current.2.2 same

theorem Taken.set_of_wait (taken : Taken C o s l') (inv : Following nbrs s)
    (outcome : Call.Outcome nbrs s a) (next : l'.pc = .wait w) :
    ∃ again, s.loc.pc = .set w again := by
  have gone : ∀ v, (C.written s.loc v).pc = .wait w →
      ¬ (s.loc.pc = .wait v ∨ ∃ again, s.loc.pc = .set v again) := by
    intro v goes at_
    obtain ⟨L, rfl | rfl⟩ := inv.locking outcome at_ <;> cases goes
  cases taken with
  | sent v again pc arrived =>
      cases next
      exact ⟨again, pc⟩
  | lost v again pc null => exact absurd (.inr ⟨again, pc⟩) (gone v next)
  | written v pc done => exact absurd (.inl pc) (gone v next)
  | boundary l' pc answered resumed => cases resumed <;> cases next
  | color u l' pc resumed => cases resumed <;> cases next
  | mustLock => cases next
  | resend => cases next
  | listed => cases next
  | unlisted => cases next
  | skipLock => cases next
  | read => cases next
  | retry => cases next
  | enter => cases next
  | crash => cases next

theorem Tried.step (tried : Tried C o s w) (locking : w = .flag lock ∨ w = .turn lock)
    (booked : Booked C o node s.loc) (inv : Following nbrs s)
    (inv' : Following nbrs (s.after l' a)) (outcome : Call.Outcome nbrs s a)
    (given : o.answer s = some a) (taken : Taken C o s l') : Tried C o (s.after l' a) w := by
  by_cases set : ∃ again, s.loc.pc = .set w again
  · obtain ⟨again, pc⟩ := set
    exact tried.step_set locking inv' given taken pc
  by_cases wait : s.loc.pc = .wait w
  · exact tried.step_wait locking inv inv' taken wait
  -- The step is about something else, and the write is as before or begins.
  have turns : (s.after l' a).turns w = s.turns w := turns_after l' a wait
  have accepted : (s.after l' a).Accepted w ↔ s.Accepted w := by
    rw [accepted_after]
    simp [set]
  have sent : w ∈ l'.sent ↔ w ∈ s.loc.sent := by
    have before := inv.sets w
    have later := inv'.sets w
    rw [show (s.after l' a).Sets w ↔ _ from sets_append w, or_iff_left set] at later
    exact later.symm.trans before
  refine ⟨?_, ?_, ?_, ?_⟩
  · intro again next
    have fresh := taken.fresh booked inv outcome locking next wait
    have none : ¬ s.Accepted w := by
      rintro ⟨again, member⟩
      exact fresh ((inv.sets w).mp ⟨again, _, member⟩)
    rw [turns, tried.unused fresh, accepted]
    exact ⟨by simp, iff_of_false none (by simp)⟩
  · intro next
    exact absurd (taken.set_of_wait inv outcome next) set
  · intro member _ _
    rw [accepted]
    exact tried.done (sent.mp member) (fun again pc => set ⟨again, pc⟩) wait
  · intro notMem
    rw [turns]
    exact tried.unused fun member => notMem (sent.mpr member)

/-- A write that the call has left behind. -/
theorem Tried.ends (tried : Tried C o s w) (sent : w ∈ s.loc.sent)
    (unset : ∀ again, s.loc.pc ≠ .set w again) (unwaited : s.loc.pc ≠ .wait w) :
    o.Ends C w ∧ (s.Accepted w ↔ o.Accepts C w) := by
  obtain ⟨n, earlier, last, accepted⟩ := tried.done sent unset unwaited
  refine ⟨⟨n, last⟩, ?_⟩
  rw [accepted]
  constructor
  · rintro ⟨m, bound, value⟩
    exact ⟨m, value, fun j less => earlier j (Nat.lt_of_lt_of_le less bound)⟩
  · rintro ⟨m, value, before⟩
    refine ⟨m, ?_, value⟩
    by_contra beyond
    exact last (before n (Nat.lt_of_not_le beyond))

end Writing

end DistributedColoring

import DistributedColoring.CallOutcomes

set_option autoImplicit false

/- The colour SET of `process_node`. Outcomes that bring a call there are told from outcomes that
let it have the neighbours, their colours and the locks. -/
namespace DistributedColoring

open GuardedRun (Run)

variable {C : Client} {o : Outcomes} {i : ℤ} {node : ℕ} {nbrs : Finset ℕ} {s : Call}

section Spinning

/-- How far the spin loop has come. -/
structure Tested (o : Outcomes) (s : Call) : Prop where
  reads : ReadsFrom o s
  waited : ∀ lock inLoop otherFlag turnVar, s.loc.pc = .spin lock inLoop otherFlag turnVar →
    ∀ q < s.tests lock, o.mustWait lock q = some true
  entered : ∀ lock ∈ s.loc.locks, o.Enters lock
  unused : ∀ lock ∉ s.loc.locks, (∀ inLoop otherFlag turnVar,
    s.loc.pc ≠ .spin lock inLoop otherFlag turnVar) → s.tests lock = 0

variable {l' : Local} {a : Answer}

theorem not_testing {pc : Pc} (unspun : ∀ lock inLoop otherFlag turnVar,
    pc ≠ .spin lock inLoop otherFlag turnVar) (lock : ClientGraphPetersonLock) :
    ¬ pc.Testing lock := by
  intro testing
  obtain ⟨inLoop, otherFlag, turnVar, same⟩ := testing.eq_spin
  exact unspun lock inLoop otherFlag turnVar same

/-- A step outside the spin loop, or into it. -/
theorem Tested.outside (tested : Tested o s) (unspun : ∀ lock inLoop otherFlag turnVar,
      s.loc.pc ≠ .spin lock inLoop otherFlag turnVar) (locks : l'.locks = s.loc.locks)
    (begins : ∀ lock inLoop otherFlag turnVar, l'.pc = .spin lock inLoop otherFlag turnVar →
      lock ∉ s.loc.locks ∧ otherFlag = none ∧ turnVar = none) : Tested o (s.after l' a) := by
  have tests : ∀ lock, (s.after l' a).tests lock = s.tests lock :=
    fun lock => tests_after l' a (not_testing unspun lock)
  refine ⟨?_, ?_, ?_, ?_⟩
  · intro lock inLoop otherFlag turnVar next
    obtain ⟨_, rfl, rfl⟩ := begins lock inLoop otherFlag turnVar next
    simp
  · intro lock inLoop otherFlag turnVar next
    obtain ⟨free, _⟩ := begins lock inLoop otherFlag turnVar next
    rw [tests, tested.unused lock free (unspun lock)]
    simp
  · rw [after_loc, locks]
    exact tested.entered
  · intro lock free _
    rw [tests]
    rw [after_loc, locks] at free
    exact tested.unused lock free (unspun lock)

/-- A step inside the spin loop that leaves the locks alone. -/
theorem Tested.inside (tested : Tested o s) {lock : ClientGraphPetersonLock}
    {inLoop inLoop' : Bool} {otherFlag turnVar otherFlag' turnVar' : Option (Reply ℤ)}
    (pc : s.loc.pc = .spin lock inLoop otherFlag turnVar)
    (reads : ReadsFrom o (s.after { s.loc with pc := .spin lock inLoop' otherFlag' turnVar' } a))
    (waited : ∀ q < (s.after { s.loc with pc := .spin lock inLoop' otherFlag' turnVar' } a).tests
      lock, o.mustWait lock q = some true) :
    Tested o (s.after { s.loc with pc := .spin lock inLoop' otherFlag' turnVar' } a) := by
  refine ⟨reads, ?_, tested.entered, ?_⟩
  · rintro lock' _ _ _ ⟨⟩
    exact waited
  · intro lock' free unspun
    have apart : lock ≠ lock' := by
      rintro rfl
      exact unspun _ _ _ rfl
    rw [tests_after _ _ (by simp [pc, Pc.Testing, apart])]
    exact tested.unused lock' free (by simp [pc, apart])

theorem Tested.step (tested : Tested o s) (booked : Booked C o node s.loc)
    (inv : Following nbrs s) (outcome : Call.Outcome nbrs s a) (taken : Taken C o s l')
    (alive : l'.pc ≠ .crashed) : Tested o (s.after l' a) := by
  have written : ∀ w, s.loc.pc = .wait w ∨ (∃ again, s.loc.pc = .set w again) →
      Tested o (s.after (C.written s.loc w) a) := by
    intro w here
    obtain ⟨lock, locking⟩ := inv.locking outcome here
    have unspun : ∀ lock inLoop otherFlag turnVar,
        s.loc.pc ≠ .spin lock inLoop otherFlag turnVar := by
      rcases here with here | ⟨again, here⟩ <;> simp [here]
    have current : lock.nbr ∈ s.loc.pc.current ∧ s.loc.pc ≠ .getNodeColor lock.nbr := by
      rcases here with here | ⟨again, here⟩ <;> rcases locking with rfl | rfl <;>
        simp [here, Pc.current, Write.current]
    have free : lock ∉ s.loc.locks :=
      fun member => booked.notMem_locks inv current.1 current.2 lock member rfl
    rcases locking with rfl | rfl
    · exact tested.outside unspun rfl (by simp [Client.written])
    · refine tested.outside unspun rfl ?_
      rintro lock' _ _ _ ⟨⟩
      exact ⟨free, rfl, rfl⟩
  cases taken with
  | listed reply pc found => exact tested.outside (by simp [pc]) rfl (by simp)
  | unlisted pc failed => exact tested.outside (by simp [pc]) rfl (by simp)
  | boundary l' pc answered resumed =>
      exact tested.outside (by simp [pc]) resumed.keeps.2.1 (by cases resumed <;> simp)
  | mustLock u pc zero => exact tested.outside (by simp [pc]) rfl (by simp)
  | skipLock u pc nonzero => exact tested.outside (by simp [pc]) rfl (by simp)
  | color u l' pc resumed =>
      exact tested.outside (by simp [pc]) resumed.keeps.2.1 (by cases resumed <;> simp)
  | sent w again pc arrived => exact tested.outside (by simp [pc]) rfl (by simp)
  | lost w again pc null => exact written w (.inr ⟨again, pc⟩)
  | resend w pc answered few => exact tested.outside (by simp [pc]) rfl (by simp)
  | written w pc done => exact written w (.inl pc)
  | read lock inLoop otherFlag turnVar pc flags turns =>
      have tests : (s.after { s.loc with pc := .spin lock inLoop otherFlag turnVar } a).tests lock =
          s.tests lock := tests_after _ _ (by simp [pc, Pc.Testing])
      refine tested.inside pc ?_ ?_
      · rintro lock' _ _ _ ⟨⟩
        rw [tests]
        exact ⟨flags, turns⟩
      · rw [tests]
        exact tested.waited lock _ _ _ pc
  | retry lock testing waits =>
      obtain ⟨inLoop, otherFlag, turnVar, pc⟩ := testing.eq_spin
      refine tested.inside pc ?_ ?_
      · rintro lock' _ _ _ ⟨⟩
        simp
      · rw [tests_after_testing _ _ testing]
        intro q less
        rcases Nat.lt_succ_iff_lt_or_eq.mp less with before | rfl
        · exact tested.waited lock _ _ _ pc q before
        · exact waits
  | enter lock testing passes =>
      obtain ⟨inLoop, otherFlag, turnVar, pc⟩ := testing.eq_spin
      refine ⟨?_, by simp, ?_, ?_⟩
      · rintro _ _ _ _ ⟨⟩
      · intro lock' member
        rcases List.mem_append.mp member with old | new
        · exact tested.entered lock' old
        · cases List.mem_singleton.mp new
          exact ⟨s.tests lock, passes, tested.waited lock _ _ _ pc⟩
      · intro lock' free _
        obtain ⟨old, new⟩ := not_or.mp (List.mem_append.not.mp free)
        have apart : lock ≠ lock' := fun same => new (List.mem_singleton.mpr same.symm)
        rw [tests_after _ _ (by simp [pc, Pc.Testing, apart])]
        exact tested.unused lock' old (by simp [pc, apart])
  | crash => exact absurd rfl alive

end Spinning

/-- What a call that has not crashed has behind it. -/
structure Assigned (C : Client) (o : Outcomes) (node : ℕ) (nbrs : Finset ℕ) (s : Call) : Prop where
  following : Following nbrs s
  trace : TraceFrom o s
  booked : Booked C o node s.loc
  flags : ∀ lock, Tried C o s (.flag lock)
  turns : ∀ lock, Tried C o s (.turn lock)
  tested : Tested o s

theorem start_assigned : Assigned C o node nbrs (Call.start i node) where
  following := start_following i node
  trace := ⟨fun _ => rfl, fun first => absurd rfl first, by simp [Call.start]⟩
  booked := ⟨rfl, fun first => absurd rfl first, by simp [Call.start, Local.visited],
    by simp [Call.start, Pc.lock?], by simp [Call.start]⟩
  flags := fun lock => ⟨by simp [Call.start], by simp [Call.start],
    by simp [Call.start, Local.sent, Pc.sent], fun _ => rfl⟩
  turns := fun lock => ⟨by simp [Call.start], by simp [Call.start],
    by simp [Call.start, Local.sent, Pc.sent], fun _ => rfl⟩
  tested := ⟨by simp [ReadsFrom, Call.start], by simp [Call.start], by simp [Call.start],
    fun _ _ _ => rfl⟩

theorem Assigned.step {s' : Call} {a : Answer} (assigned : Assigned C o node nbrs s)
    (lists : o.Lists nbrs) (given : o.answer s = some a) (taken : Call.step C s a = some s')
    (alive : s'.loc.pc ≠ .crashed) : Assigned C o node nbrs s' := by
  have outcome := outcome_of_answer lists given
  have following' := assigned.following.step outcome taken alive
  obtain ⟨following, trace, booked, flags, turns, tested⟩ := assigned
  obtain ⟨l', goes, rfl⟩ := taken_of_step tested.reads given taken
  exact ⟨following', trace.step given (goes.started following outcome),
    booked.step following outcome goes alive,
    fun lock => (flags lock).step (.inl rfl) booked following following' outcome given goes,
    fun lock => (turns lock).step (.inr rfl) booked following following' outcome given goes,
    tested.step booked following outcome goes alive⟩

theorem Outcomes.Leads.assigned (leads : o.Leads C i node s) (lists : o.Lists nbrs)
    (alive : s.loc.pc ≠ .crashed) : Assigned C o node nbrs s := by
  refine leads.invariant (P := fun s => s.loc.pc ≠ .crashed → Assigned C o node nbrs s)
    (fun _ => start_assigned) ?_ alive
  intro before a after inv given taken alive
  refine (inv ?_).step lists given taken alive
  intro crashed
  simp [Outcomes.answer, crashed] at given

theorem Outcomes.Leads.next {a : Answer} {l' : Local} (leads : o.Leads C i node s)
    (given : o.answer s = some a) (answered : C.answer s.loc a = some l') :
    o.Leads C i node (s.after l' a) := by
  refine leads.tail given ?_
  rw [Call.step, answered]
  rfl

/-- One turn of the loop of `write_with_wait`. -/
theorem exists_turn {w : Write} {lock : ClientGraphPetersonLock}
    (locking : w = .flag lock ∨ w = .turn lock) (leads : o.Leads C i node s) {again : Bool}
    (pc : s.loc.pc = .set w again) :
    (∃ t, o.Leads C i node t ∧ t.loc = C.written s.loc w) ∨
      o.Repeats C w (s.turns w) ∧ ∃ t, o.Leads C i node t ∧
        t.loc = { s.loc with pc := .set w true } ∧ t.turns w = s.turns w + 1 := by
  have elsewhere : C.written { s.loc with pc := .wait w } w = C.written s.loc w := by
    rcases locking with rfl | rfl <;> rfl
  have given : o.answer s = some (.set (o.set w (s.turns w))) := by
    rcases locking with rfl | rfl <;> simp [Outcomes.answer, pc]
  have answered : C.answer s.loc (.set (o.set w (s.turns w))) =
      some (C.onSet s.loc w (o.set w (s.turns w))) := by
    simp [Client.answer, pc]
  have sent := leads.next given answered
  by_cases null : o.set w (s.turns w) = .null
  · exact .inl ⟨_, sent, by rw [after_loc, null]; rfl⟩
  have waiting : C.onSet s.loc w (o.set w (s.turns w)) = { s.loc with pc := .wait w } := by
    unfold Client.onSet
    split
    · rename_i reply
      exact absurd reply null
    · rfl
  rw [waiting] at sent
  have turns : (s.after { s.loc with pc := .wait w } (.set (o.set w (s.turns w)))).turns w =
      s.turns w := turns_after _ _ (by simp [pc])
  have done := sent.next (a := .wait (o.wait w (s.turns w)))
    (by simp [Outcomes.answer, turns]) (by simp only [Client.answer, after_loc]; rfl)
  unfold Client.onWait at done
  split at done
  · exact .inl ⟨_, done, elsewhere⟩
  · rename_i answered
    split at done
    · rename_i few
      refine .inr ⟨⟨null, answered, few⟩, _, done, rfl, ?_⟩
      rw [turns_after_wait _ _ rfl, turns]
    · exact .inl ⟨_, done, elsewhere⟩

theorem not_testing_fresh {pc : Pc} {lock : ClientGraphPetersonLock} {inLoop : Bool}
    (lock' : ClientGraphPetersonLock) (fresh : pc = .spin lock inLoop none none) :
    ¬ pc.Testing lock' := by
  simp [fresh, Pc.Testing]

/-- One test of the spin loop. -/
theorem exists_test {lock : ClientGraphPetersonLock} (leads : o.Leads C i node s) {inLoop : Bool}
    (pc : s.loc.pc = .spin lock inLoop none none) :
    ∃ t inLoop', o.Leads C i node t ∧ t.tests lock = s.tests lock + 1 ∧
      t.loc = Client.onLockReads s.loc lock inLoop' (some (o.otherFlag lock (s.tests lock)))
        (some (o.turnVar lock (s.tests lock))) := by
  cases inLoop with
  | false =>
      have first : o.Leads C i node (s.after { s.loc with
          pc := .spin lock false (some (o.otherFlag lock (s.tests lock))) none } _) :=
        leads.next (a := .get (o.otherFlag lock (s.tests lock)))
          (by simp [Outcomes.answer, pc]) (by simp only [Client.answer, pc]; rfl)
      have tests := tests_after { s.loc with
          pc := .spin lock false (some (o.otherFlag lock (s.tests lock))) none }
        (.get (o.otherFlag lock (s.tests lock))) (not_testing_fresh lock pc)
      have second := first.next (a := .get (o.turnVar lock (s.tests lock)))
        (by simp [Outcomes.answer, tests]) (by simp only [Client.answer, after_loc]; rfl)
      refine ⟨_, false, second, ?_, rfl⟩
      rw [tests_after_testing _ _ (by simp [Pc.Testing]), tests]
  | true =>
      have first : o.Leads C i node (s.after { s.loc with
          pc := .spin lock true none (some (o.turnVar lock (s.tests lock))) } _) :=
        leads.next (a := .get (o.turnVar lock (s.tests lock)))
          (by simp [Outcomes.answer, pc]) (by simp only [Client.answer, pc]; rfl)
      have tests := tests_after { s.loc with
          pc := .spin lock true none (some (o.turnVar lock (s.tests lock))) }
        (.get (o.turnVar lock (s.tests lock))) (not_testing_fresh lock pc)
      have second := first.next (a := .get (o.otherFlag lock (s.tests lock)))
        (by simp [Outcomes.answer, tests]) (by simp only [Client.answer, after_loc]; rfl)
      refine ⟨_, true, second, ?_, rfl⟩
      rw [tests_after_testing _ _ (by simp [Pc.Testing]), tests]

section Progress

variable (lists : o.Lists nbrs)

include lists

/-- A `write_with_wait` whose loop ends. -/
theorem exists_written {w : Write} {lock : ClientGraphPetersonLock}
    (locking : w = .flag lock ∨ w = .turn lock) (ends : o.Ends C w) (leads : o.Leads C i node s)
    {again : Bool} (pc : s.loc.pc = .set w again) :
    ∃ t, o.Leads C i node t ∧ t.loc = C.written s.loc w := by
  obtain ⟨n, last⟩ := ends
  -- Turn `n` is the last one at most, and each turn brings the loop nearer to it.
  induction left : n - s.turns w using Nat.strong_induction_on generalizing s again with
  | _ d ih =>
      rcases exists_turn locking leads pc with written | ⟨repeats, t, leads', loc, turns⟩
      · exact written
      · have tried : Tried C o s w := by
          have assigned := leads.assigned lists (by simp [pc])
          rcases locking with rfl | rfl
          · exact assigned.flags lock
          · exact assigned.turns lock
        obtain ⟨earlier, _⟩ := tried.setting again pc
        have before : s.turns w < n := by
          rcases Nat.lt_trichotomy (s.turns w) n with less | rfl | more
          · exact less
          · exact absurd repeats last
          · exact absurd (earlier n more) last
        obtain ⟨t', leads'', loc'⟩ := ih _ (by omega) leads' (by rw [loc]) rfl
        refine ⟨t', leads'', loc'.trans ?_⟩
        rw [loc]
        rcases locking with rfl | rfl <;> rfl

/-- A spin loop that ends. -/
theorem exists_entered {lock : ClientGraphPetersonLock} (enters : o.Enters lock)
    (leads : o.Leads C i node s) {inLoop : Bool} (pc : s.loc.pc = .spin lock inLoop none none) :
    ∃ t, o.Leads C i node t ∧
      t.loc = { s.loc with locks := s.loc.locks ++ [lock], pc := .getNodeColor lock.nbr } := by
  obtain ⟨r, passes, waits⟩ := enters
  induction left : r - s.tests lock using Nat.strong_induction_on generalizing s inLoop with
  | _ d ih =>
      obtain ⟨t, inLoop', leads', tests, loc⟩ := exists_test leads pc
      have waited := (leads.assigned lists (by simp [pc])).tested.waited lock _ _ _ pc
      have least : s.tests lock ≤ r := by
        by_contra beyond
        have again := waited r (Nat.lt_of_not_le beyond)
        rw [passes] at again
        cases again
      rcases Nat.lt_or_eq_of_le least with before | rfl
      · have again := waits _ before
        unfold Outcomes.mustWait at again
        simp only [Client.onLockReads, again] at loc
        obtain ⟨t', leads'', loc'⟩ := ih _ (by omega) leads' (by rw [loc]) rfl
        exact ⟨t', leads'', by rw [loc', loc]⟩
      · unfold Outcomes.mustWait at passes
        simp only [Client.onLockReads, passes] at loc
        exact ⟨t, leads', loc⟩

/-- A neighbour whose lock is to be taken. -/
theorem exists_locked {u : ℕ} (own : s.loc.node = node)
    (ends : o.Ends C (.flag ⟨node, u⟩) ∧ o.Ends C (.turn ⟨node, u⟩) ∧ o.Enters ⟨node, u⟩)
    (leads : o.Leads C i node s) (pc : s.loc.pc = .set (.flag ⟨node, u⟩) false) :
    ∃ t, o.Leads C i node t ∧ t.loc.pc = .getNodeColor u ∧ t.loc.node = node ∧
      t.loc.todo = s.loc.todo := by
  obtain ⟨flags, turns, enters⟩ := ends
  obtain ⟨t₁, leads₁, loc₁⟩ := exists_written lists (.inl rfl) flags leads pc
  obtain ⟨t₂, leads₂, loc₂⟩ := exists_written lists (.inr rfl) turns leads₁
    (by rw [loc₁, Client.written])
  obtain ⟨t₃, leads₃, loc₃⟩ := exists_entered lists enters leads₂ (by rw [loc₂, Client.written])
  rw [loc₁, Client.written] at loc₂
  rw [loc₂, Client.written] at loc₃
  exact ⟨t₃, leads₃, by rw [loc₃], by rw [loc₃]; exact own, by rw [loc₃]⟩

/-- The loop over the neighbours comes to its end. -/
theorem exists_issued {l : Local} (own : l.node = node) (locks : ∀ u ∈ l.todo, o.Locks C u →
      o.Ends C (.flag ⟨node, u⟩) ∧ o.Ends C (.turn ⟨node, u⟩) ∧ o.Enters ⟨node, u⟩)
    (leads : o.Leads C i node s) (resumed : Resumed C l s.loc) :
    ∃ t x, o.Leads C i node t ∧ t.loc.pc = .set (.color x) false := by
  induction rest : l.todo generalizing l s with
  | nil =>
      generalize loc : s.loc = m at resumed
      cases resumed with
      | choose x empty least => exact ⟨s, x, leads, by rw [loc]⟩
      | inside u more split range => simp [rest] at split
      | outside u more split range => simp [rest] at split
  | cons u more ih =>
      rw [rest, List.forall_mem_cons] at locks
      -- However the neighbour is reached, its colour is read and the loop goes on.
      have colored : ∀ t, o.Leads C i node t → t.loc.pc = .getNodeColor u → t.loc.node = node →
          t.loc.todo = more → ∃ t x, o.Leads C i node t ∧ t.loc.pc = .set (.color x) false := by
        intro t leads' pc own' todo
        have next := leads'.next (a := .get (o.color u)) (by simp [Outcomes.answer, pc])
          (by simp only [Client.answer, pc]; rfl)
        refine ih (l := { t.loc with colors := t.loc.colors ++ [(u, getNodeColor (o.color u))] })
          own' ?_ next (readNext_resumed C _) todo
        rw [show Local.todo { t.loc with colors := _ } = more from todo]
        exact locks.2
      generalize loc : s.loc = m at resumed
      cases resumed with
      | choose x empty least => simp [rest] at empty
      | inside v more' split range =>
          rw [rest] at split
          cases split
          exact colored s leads (by rw [loc]) (by rw [loc]; exact own) (by rw [loc])
      | outside v more' split range =>
          rw [rest] at split
          cases split
          have pc : s.loc.pc = .getStatus u := by rw [loc]
          have same : s.loc.node = node := by rw [loc]; exact own
          have todo : s.loc.todo = more := by rw [loc]
          have next := leads.next (a := .get (o.status u)) (by simp [Outcomes.answer, pc])
            (by simp only [Client.answer, pc]; rfl)
          unfold Client.onStatus at next
          split at next
          · rename_i zero
            obtain ⟨t, leads', pc', own', todo'⟩ := exists_locked lists (u := u)
              (by exact same) (locks.1 ⟨range, zero⟩) next (by rw [after_loc, same])
            exact colored t leads' pc' own' (todo'.trans todo)
          · exact colored _ next rfl same todo

/-- A call that nothing stops issues its colour SET. -/
theorem Outcomes.Goes.exists_issued (goes : o.Goes C node nbrs) (i : ℤ) :
    ∃ s x, o.Leads C i node s ∧ s.loc.pc = .set (.color x) false := by
  have first : o.Leads C i node ((Call.start i node).after
      (Client.onNeighbours (Call.start i node).loc o.neighbours) (.smembers o.neighbours)) :=
    Outcomes.Leads.next .refl rfl rfl
  generalize listed : Client.onNeighbours (Call.start i node).loc o.neighbours = l at first
  have next : l.pc = .checkBoundaryNode ∧ l.node = node := by
    rw [← listed]
    unfold Client.onNeighbours
    split <;> exact ⟨rfl, rfl⟩
  have second := first.next (a := .smembers o.boundary)
    (by simp only [Outcomes.answer, after_loc, next.1])
    (by simp only [Client.answer, after_loc, next.1]; rfl)
  have resumed : Resumed C l (C.onBoundary l o.boundary) := by
    unfold Client.onBoundary
    split
    · rename_i null
      exact absurd null goes.boundary
    · exact readNext_resumed C l
  refine DistributedColoring.exists_issued lists next.2 ?_ second resumed
  intro u member locks
  rw [← listed] at member
  unfold Client.onNeighbours at member
  split at member
  · rename_i reply found
    have inNbrs : u ∈ nbrs := by
      rw [← (lists reply found).2, List.mem_toFinset]
      exact (List.perm_insertionSort _ _).mem_iff.mp member
    exact goes.locks reply found u inNbrs locks
  · cases member

end Progress

section Issued

variable {x : ℤ}

/-- At the colour SET: the neighbours whose colour was asked for. -/
theorem Assigned.mem_visited (assigned : Assigned C o node nbrs s)
    (issued : s.loc.pc = .set (.color x) false) {u : ℕ} :
    u ∈ s.loc.visited ↔ (∃ reply, o.neighbours = .value reply) ∧ u ∈ nbrs := by
  rw [← (assigned.following.issued issued).1, assigned.following.list,
    assigned.trace.listed (by simp [issued])]

theorem Assigned.mem_locks (assigned : Assigned C o node nbrs s)
    (issued : s.loc.pc = .set (.color x) false) {lock : ClientGraphPetersonLock} :
    lock ∈ s.loc.locks ↔ lock.node = node ∧
      ((∃ reply, o.neighbours = .value reply) ∧ lock.nbr ∈ nbrs) ∧ o.Locks C lock.nbr := by
  rw [assigned.booked.locks, ← assigned.mem_visited issued]
  simp [issued]

theorem Assigned.lock_taken (assigned : Assigned C o node nbrs s)
    (issued : s.loc.pc = .set (.color x) false) {lock : ClientGraphPetersonLock}
    (member : lock ∈ s.loc.locks) :
    (o.Ends C (.flag lock) ∧ (s.Accepted (.flag lock) ↔ o.Accepts C (.flag lock))) ∧
      (o.Ends C (.turn lock) ∧ (s.Accepted (.turn lock) ↔ o.Accepts C (.turn lock))) ∧
      o.Enters lock := by
  refine ⟨(assigned.flags lock).ends ?_ (by simp [issued]) (by simp [issued]),
    (assigned.turns lock).ends ?_ (by simp [issued]) (by simp [issued]),
    assigned.tested.entered lock member⟩
  · exact (mem_sent_iff _).mpr (.inl ⟨lock, member, .inl rfl⟩)
  · exact (mem_sent_iff _).mpr (.inl ⟨lock, member, .inr rfl⟩)

theorem Assigned.goes (assigned : Assigned C o node nbrs s)
    (issued : s.loc.pc = .set (.color x) false) : o.Goes C node nbrs := by
  refine ⟨assigned.booked.boundary (by simp [issued]) (by simp [issued]), ?_⟩
  intro reply found u member locks
  have taken : ⟨node, u⟩ ∈ s.loc.locks :=
    (assigned.mem_locks issued).mpr ⟨rfl, ⟨⟨reply, found⟩, member⟩, locks⟩
  obtain ⟨flags, turns, enters⟩ := assigned.lock_taken issued taken
  exact ⟨flags.1, turns.1, enters⟩

theorem Assigned.failSafe_iff (assigned : Assigned C o node nbrs s)
    (issued : s.loc.pc = .set (.color x) false) : s.FailSafe nbrs ↔ o.Safe C node nbrs := by
  have read : ∀ u, u ∈ s.loc.visited ↔ (.getNodeColor u, .get (o.color u)) ∈ s.trace := by
    intro u
    rw [assigned.following.mem_visited]
    constructor
    · rintro ⟨reply, member⟩
      rwa [← assigned.trace.colors u reply member]
    · exact fun member => ⟨_, member⟩
  constructor
  · rintro ⟨colors, accepted⟩
    have visited : ∀ u ∈ nbrs, u ∈ s.loc.visited ∧ ∃ y, o.color u = .value y := by
      intro u member
      obtain ⟨y, event⟩ := colors u member
      exact ⟨assigned.following.mem_visited.mpr ⟨_, event⟩,
        y, (assigned.trace.colors u _ event).symm⟩
    have listed : ∀ u ∈ nbrs, ∃ reply, o.neighbours = .value reply :=
      fun u member => ((assigned.mem_visited issued).mp (visited u member).1).1
    refine ⟨?_, fun u member => (visited u member).2, ?_⟩
    · rcases nbrs.eq_empty_or_nonempty with empty | ⟨u, member⟩
      · exact .inl empty
      · exact .inr (listed u member)
    · intro u member locks
      have taken : ⟨node, u⟩ ∈ s.loc.locks :=
        (assigned.mem_locks issued).mpr ⟨rfl, ⟨listed u member, member⟩, locks⟩
      obtain ⟨flags, turns, _⟩ := assigned.lock_taken issued taken
      exact ⟨flags.2.mp (accepted _ taken).1, turns.2.mp (accepted _ taken).2⟩
  · rintro ⟨neighbours, colors, locks⟩
    constructor
    · intro u member
      have listed := neighbours.resolve_left (Finset.ne_empty_of_mem member)
      obtain ⟨y, value⟩ := colors u member
      exact ⟨y, value ▸ (read u).mp ((assigned.mem_visited issued).mpr ⟨listed, member⟩)⟩
    · rintro lock taken
      obtain ⟨own, ⟨_, member⟩, external⟩ := (assigned.mem_locks issued).mp taken
      obtain ⟨flags, turns, _⟩ := assigned.lock_taken issued taken
      have accepts := locks lock.nbr member external
      rw [← own] at accepts
      exact ⟨flags.2.mpr accepts.1, turns.2.mpr accepts.2⟩

end Issued

/-- Exactly the outcomes that bring a call to its colour SET without the neighbours, a colour
or a lock make it issue the SET unsafely: nothing but a crash or an endless loop stops it. -/
theorem color_set_failSafe_iff (C : Client) (nbrs : Finset ℕ) (i : ℤ) (node : ℕ) (o : Outcomes)
    (lists : o.Lists nbrs) :
    (∀ s x, o.Leads C i node s → s.loc.pc = .set (.color x) false → s.FailSafe nbrs) ↔
      (o.Goes C node nbrs → o.Safe C node nbrs) := by
  constructor
  · intro failSafe goes
    obtain ⟨s, x, leads, issued⟩ := goes.exists_issued lists i
    have assigned := leads.assigned lists (by simp [issued])
    exact (assigned.failSafe_iff issued).mp (failSafe s x leads issued)
  · intro safe s x leads issued
    have assigned := leads.assigned lists (by simp [issued])
    exact (assigned.failSafe_iff issued).mpr (safe (assigned.goes issued))

/-- Node 0 with its only neighbour in another range. -/
def boundaryClient : Client := ⟨0, 0, [0, 1], 0⟩

/-- Every command succeeds, and the neighbour has the colour 0. -/
def servedOutcomes : Outcomes where
  neighbours := .value [1]
  boundary := .value [1]
  status _ := .nil
  set _ _ := .value ()
  wait _ _ := .value 0
  otherFlag _ _ := .nil
  turnVar _ _ := .value 0
  color _ := .value 0

/-- The server is out of memory, and the neighbour has no colour. -/
def refusedOutcomes : Outcomes where
  neighbours := .value [1]
  boundary := .value [1]
  status _ := .nil
  set _ _ := .error "OOM".toList
  wait _ _ := .value 0
  otherFlag _ _ := .nil
  turnVar _ _ := .nil
  color _ := .nil

theorem boundary_call_failSafe :
    ∃ s, servedOutcomes.Leads boundaryClient 0 0 s ∧ s.loc.pc = .set (.color 1) false ∧
      s.loc.locks = [⟨0, 1⟩] ∧ s.FailSafe {1} := by
  have lists : servedOutcomes.Lists {1} := by
    rintro reply ⟨⟩
    decide
  obtain ⟨s, leads, issued, locks⟩ := GuardedRun.exists_run_of_exec (Call.step boundaryClient)
    (fun s a => servedOutcomes.answer s = some a) (Call.start 0 0)
    (fun s => s.loc.pc = .set (.color 1) false ∧ s.loc.locks = [⟨0, 1⟩])
    [.smembers (.value [1]), .smembers (.value [1]), .get .nil, .set (.value ()),
      .wait (.value 0), .set (.value ()), .wait (.value 0), .get .nil, .get (.value 0),
      .get (.value 0)] (by decide +kernel)
  refine ⟨s, leads, issued, locks, ?_⟩
  refine (color_set_failSafe_iff boundaryClient {1} 0 0 servedOutcomes lists).mpr ?_ s 1 leads
    issued
  intro _
  exact ⟨.inr ⟨_, rfl⟩, fun _ _ => ⟨0, rfl⟩, fun _ _ _ => ⟨⟨0, rfl, by simp⟩, ⟨0, rfl, by simp⟩⟩⟩

/-- The lock is counted all the same and the colour SET is sent. -/
theorem refused_lock_colored : refusedOutcomes.Lists {1} ∧
    ∃ s, refusedOutcomes.Leads boundaryClient 0 0 s ∧ s.loc.pc = .set (.color 0) false ∧
      s.loc.locks = [⟨0, 1⟩] ∧ ¬ s.FailSafe {1} ∧ ∀ w, ¬ s.Accepted w := by
  constructor
  · rintro reply ⟨⟩
    decide
  · have leads : refusedOutcomes.Leads boundaryClient 0 0
        ⟨⟨0, 0, [], [(1, -1)], [⟨0, 1⟩], .set (.color 0) false⟩,
          [(.getAllNeighbours, .smembers (.value [1])),
            (.checkBoundaryNode, .smembers (.value [1])), (.getStatus 1, .get .nil),
            (.set (.flag ⟨0, 1⟩) false, .set (.error "OOM".toList)),
            (.wait (.flag ⟨0, 1⟩), .wait (.value 0)),
            (.set (.turn ⟨0, 1⟩) false, .set (.error "OOM".toList)),
            (.wait (.turn ⟨0, 1⟩), .wait (.value 0)), (.spin ⟨0, 1⟩ false none none, .get .nil),
            (.spin ⟨0, 1⟩ false (some .nil) none, .get .nil), (.getNodeColor 1, .get .nil)]⟩ :=
      Run.of_exec [.smembers (.value [1]), .smembers (.value [1]), .get .nil,
        .set (.error "OOM".toList), .wait (.value 0), .set (.error "OOM".toList),
        .wait (.value 0), .get .nil, .get .nil, .get .nil] rfl
    refine ⟨_, leads, rfl, rfl, ?_, by simp [Call.Accepted]⟩
    rintro ⟨colors, _⟩
    obtain ⟨x, read⟩ := colors 1 (by simp)
    simp at read

end DistributedColoring

import DistributedColoring.History

set_option autoImplicit false

/- One call of `process_node` up to its colour SET, with any outcome for every
command: the server may answer, answer nil, refuse with an error, or the connection
may fail. -/
namespace DistributedColoring

open GuardedRun (Run)

variable {k N : ℕ} {C : Client} {nbrs : Finset ℕ}

/-- What a command of a client returns. -/
inductive Answer
  | smembers (reply : Reply (List ℕ))
  | get (reply : Reply ℤ)
  | set (reply : Reply Unit)
  | wait (reply : Reply ℕ)
  deriving DecidableEq

/-- The client goes on with the answer to the command it waits for. -/
def Client.answer (c : Client) (l : Local) (a : Answer) : Option Local :=
  match l.pc, a with
  | .getAllNeighbours, .smembers reply => some (onNeighbours l reply)
  | .checkBoundaryNode, .smembers reply => some (c.onBoundary l reply)
  | .getStatus nbr, .get reply => some (onStatus l nbr reply)
  | .getNodeColor nbr, .get reply => some (c.onColor l nbr reply)
  | .set w _, .set reply => some (c.onSet l w reply)
  | .wait w, .wait reply => some (c.onWait l w reply)
  -- `other_flag` is read first before the loop, `turn_var_new` first inside it
  | .spin lock false none turnVar, .get reply =>
      some (onLockReads l lock false (some reply) turnVar)
  | .spin lock false (some flag) _, .get reply =>
      some (onLockReads l lock false (some flag) (some reply))
  | .spin lock true otherFlag none, .get reply =>
      some (onLockReads l lock true otherFlag (some reply))
  | .spin lock true _ (some turn), .get reply =>
      some (onLockReads l lock true (some reply) (some turn))
  | _, _ => none

/-- A call of `process_node` in progress and the commands it has had answered. -/
structure Call where
  loc : Local
  trace : List (Pc × Answer)

namespace Call

def start (i : ℤ) (node : ℕ) : Call := ⟨⟨i, node, [], [], [], .getAllNeighbours⟩, []⟩

def step (c : Client) (s : Call) (a : Answer) : Option Call :=
  (c.answer s.loc a).map fun l => ⟨l, s.trace ++ [(s.loc.pc, a)]⟩

/-- The neighbour set is answered with its members or not at all, and the call is
followed no further than to its colour SET. -/
def Outcome (nbrs : Finset ℕ) (s : Call) (a : Answer) : Prop :=
  match s.loc.pc, a with
  | .getAllNeighbours, .smembers (.value reply) => reply.Nodup ∧ reply.toFinset = nbrs
  | .set (.color _) _, _ => False
  | _, _ => True

instance (s : Call) (a : Answer) : Decidable (Outcome nbrs s a) := by
  unfold Outcome
  split <;> infer_instance

variable (s : Call)

/-- `get_all_neighbours` was answered. -/
def Listed : Prop := ∃ reply, (.getAllNeighbours, .smembers (.value reply)) ∈ s.trace

/-- Some SET of `write_with_wait` was sent for this write. -/
def Sets (w : Write) : Prop := ∃ again a, (.set w again, a) ∈ s.trace

/-- The server accepted some SET of this write. -/
def Accepted (w : Write) : Prop := ∃ again, (.set w again, .set (.value ())) ∈ s.trace

/-- Every neighbour was read with a value, and every counted lock has its flag and
its turn on the server. -/
def FailSafe (nbrs : Finset ℕ) : Prop :=
  (∀ u ∈ nbrs, ∃ x, (.getNodeColor u, .get (.value x)) ∈ s.trace) ∧
    ∀ lock ∈ s.loc.locks, s.Accepted (.flag lock) ∧ s.Accepted (.turn lock)

end Call

/-- The results of `Client.answer`. -/
inductive Replied (C : Client) (l : Local) : Answer → Local → Prop
  | listed (reply : List ℕ) (pc : l.pc = .getAllNeighbours) :
      Replied C l (.smembers (.value reply))
        { l with todo := sortNeighbours reply, pc := .checkBoundaryNode }
  | unlisted (reply : Reply (List ℕ)) (pc : l.pc = .getAllNeighbours)
      (failed : ∀ members, reply ≠ .value members) :
      Replied C l (.smembers reply) { l with todo := [], pc := .checkBoundaryNode }
  | boundary (reply : Reply (List ℕ)) (l' : Local) (pc : l.pc = .checkBoundaryNode)
      (resumed : Resumed C l l') : Replied C l (.smembers reply) l'
  | mustLock (u : ℕ) (reply : Reply ℤ) (pc : l.pc = .getStatus u) :
      Replied C l (.get reply) { l with pc := .set (.flag ⟨l.node, u⟩) false }
  | skipLock (u : ℕ) (reply : Reply ℤ) (pc : l.pc = .getStatus u) :
      Replied C l (.get reply) { l with pc := .getNodeColor u }
  | color (u : ℕ) (reply : Reply ℤ) (l' : Local) (pc : l.pc = .getNodeColor u)
      (resumed : Resumed C { l with colors := l.colors ++ [(u, getNodeColor reply)] } l') :
      Replied C l (.get reply) l'
  | sent (w : Write) (again : Bool) (reply : Reply Unit) (pc : l.pc = .set w again) :
      Replied C l (.set reply) { l with pc := .wait w }
  | unsent (w : Write) (again : Bool) (reply : Reply Unit) (pc : l.pc = .set w again) :
      Replied C l (.set reply) (C.written l w)
  | resend (w : Write) (reply : Reply ℕ) (pc : l.pc = .wait w) :
      Replied C l (.wait reply) { l with pc := .set w true }
  | written (w : Write) (reply : Reply ℕ) (pc : l.pc = .wait w) :
      Replied C l (.wait reply) (C.written l w)
  | spin (lock : ClientGraphPetersonLock) (inLoop : Bool)
      (oldFlag oldTurn newFlag newTurn : Option (Reply ℤ)) (reply : Reply ℤ) (l' : Local)
      (pc : l.pc = .spin lock inLoop oldFlag oldTurn) (spun : Spun l lock newFlag newTurn l') :
      Replied C l (.get reply) l'
  | crash (pc : l.pc = .checkBoundaryNode) :
      Replied C l (.smembers .null) { l with pc := .crashed }

theorem answer_replied {l l' : Local} {a : Answer} (answered : C.answer l a = some l') :
    Replied C l a l' := by
  unfold Client.answer at answered
  split at answered <;> cases answered
  · rename_i reply pc
    cases reply with
    | value members => exact .listed members pc
    | null => exact .unlisted _ pc (by simp)
    | nil => exact .unlisted _ pc (by simp)
    | error msg => exact .unlisted _ pc (by simp)
  · rename_i reply pc
    cases reply with
    | null => exact .crash pc
    | nil => exact .boundary _ _ pc (readNext_resumed C l)
    | error msg => exact .boundary _ _ pc (readNext_resumed C l)
    | value members => exact .boundary _ _ pc (readNext_resumed C l)
  · rename_i u reply pc
    unfold Client.onStatus
    split
    · exact .mustLock u reply pc
    · exact .skipLock u reply pc
  · rename_i u reply pc
    exact .color u reply _ pc (readNext_resumed C _)
  · rename_i w again reply pc
    cases reply with
    | null => exact .unsent w again _ pc
    | nil => exact .sent w again _ pc
    | error msg => exact .sent w again _ pc
    | value x => exact .sent w again _ pc
  · rename_i w reply pc
    unfold Client.onWait
    split
    · exact .written w _ pc
    · split
      · exact .resend w _ pc
      · exact .written w _ pc
  all_goals
    rename_i pc
    exact .spin _ _ _ _ _ _ _ _ pc (onLockReads_spun l _ _ _ _)

/-- A client of a deployment makes the steps of a call whose commands all succeed. -/
theorem clientMove_answer {D : Deployment k N} (sync : D.order = .sync) {c : Fin k}
    {l l' : Local} {get : Key → Reply ℤ} {most : ℕ} {move : Move} {sent : Option (Write × Bool)}
    (taken : D.clientMove c l get most move = some (l', sent)) :
    ∃ a, (D.client c).answer l a = some l' := by
  unfold Deployment.clientMove at taken
  unfold Client.answer
  split at taken
  · rename_i reply pc
    split at taken <;> cases taken
    exact ⟨.smembers (.value reply), by rw [pc]⟩
  · rename_i reply pc
    split at taken <;> cases taken
    exact ⟨.smembers (.value reply), by rw [pc]⟩
  · rename_i u pc
    cases taken
    exact ⟨.get (get (.status u)), by rw [pc]⟩
  · rename_i u pc
    cases taken
    exact ⟨.get (get (.color u)), by rw [pc]⟩
  · rename_i w again pc
    cases taken
    exact ⟨.set (.value ()), by rw [pc]⟩
  · rename_i w acks pc
    split at taken <;> cases taken
    exact ⟨.wait (.value acks), by rw [pc]⟩
  · rename_i lock inLoop turnVar pc
    split at taken
    · rename_i first
      cases taken
      refine ⟨.get (get lock.lockKey2), ?_⟩
      cases inLoop with
      | false => rw [pc]
      | true =>
          cases turnVar with
          | none => simp [sync, ReadOrder.sync] at first
          | some turn => rw [pc]
    · cases taken
  · rename_i lock inLoop otherFlag pc
    split at taken
    · rename_i first
      cases taken
      refine ⟨.get (get lock.turnKey), ?_⟩
      cases inLoop with
      | true => rw [pc]
      | false =>
          cases otherFlag with
          | none => simp [sync, ReadOrder.sync] at first
          | some flag => rw [pc]
    · cases taken
  · cases taken

/-- What `acquire_lock` writes before this write. -/
def Write.earlier : Write → List Write
  | .turn lock => [.flag lock]
  | _ => []

/-- The writes already sent for the lock in hand. -/
def Pc.sent : Pc → List Write
  | .set w again => w.earlier ++ if again then [w] else []
  | .wait w => w.earlier ++ [w]
  | .spin lock _ _ _ => [.flag lock, .turn lock]
  | _ => []

/-- The writes already sent for the counted locks and for the lock in hand. -/
def Local.sent (l : Local) : List Write :=
  l.locks.flatMap (fun lock => [.flag lock, .turn lock]) ++ l.pc.sent

def colorRead : Pc × Answer → Option (ℕ × Reply ℤ)
  | (.getNodeColor u, .get reply) => some (u, reply)
  | _ => none

theorem mem_colorReads {trace : List (Pc × Answer)} {u : ℕ} {reply : Reply ℤ} :
    (u, reply) ∈ trace.filterMap colorRead ↔ (.getNodeColor u, .get reply) ∈ trace := by
  rw [List.mem_filterMap]
  constructor
  · intro ⟨event, member, read⟩
    unfold colorRead at read
    split at read
    · cases read
      exact member
    · cases read
  · intro member
    exact ⟨_, member, rfl⟩

/-- What a call knows, before its colour SET, of the commands behind it. -/
structure Following (nbrs : Finset ℕ) (s : Call) : Prop where
  reading : s.loc.pc.Reading
  fresh : s.loc.pc = .getAllNeighbours → s.loc.neighbourhood = []
  chosen : ∀ x again, s.loc.pc = .set (.color x) again → s.loc.todo = []
  distinct : s.loc.neighbourhood.Nodup
  list : ∀ u, u ∈ s.loc.neighbourhood ↔ s.Listed ∧ u ∈ nbrs
  reads : (s.trace.filterMap colorRead).map Prod.fst = s.loc.visited
  sets : ∀ w, s.Sets w ↔ w ∈ s.loc.sent

theorem start_following (i : ℤ) (node : ℕ) : Following nbrs (Call.start i node) where
  reading := by simp [Call.start, Pc.Reading, Pc.Active, Pc.Colored]
  fresh := fun _ => rfl
  chosen := by simp [Call.start]
  distinct := List.nodup_nil
  list := by simp [Call.start, Call.Listed, Local.neighbourhood, Local.visited, Pc.current]
  reads := rfl
  sets := by simp [Call.start, Call.Sets, Local.sent, Pc.sent]

/-- What a step leaves to the next: the neighbours past those read, and the locks. -/
structure Onward (l l' : Local) : Prop where
  reading : l'.pc.Reading
  started : l'.pc ≠ .getAllNeighbours
  chosen : ∀ x again, l'.pc = .set (.color x) again → l'.todo = []
  neighbourhood : l'.neighbourhood = l.neighbourhood
  sent : ∀ w, w ∈ l'.sent ↔ w ∈ l.sent ∨ ∃ again, l.pc = .set w again

theorem sets_append {l : Local} {s : Call} {a : Answer} (w : Write) :
    Call.Sets ⟨l, s.trace ++ [(s.loc.pc, a)]⟩ w ↔ s.Sets w ∨ ∃ again, s.loc.pc = .set w again := by
  unfold Call.Sets
  constructor
  · intro ⟨again, b, member⟩
    rcases List.mem_append.mp member with old | new
    · exact Or.inl ⟨again, b, old⟩
    · have same := List.mem_singleton.mp new
      exact Or.inr ⟨again, (congrArg Prod.fst same).symm⟩
  · intro sent
    rcases sent with ⟨again, b, old⟩ | ⟨again, pc⟩
    · exact ⟨again, b, List.mem_append_left _ old⟩
    · exact ⟨again, a, by simp [pc]⟩

theorem listed_append {l : Local} {s : Call} {a : Answer} (pc : s.loc.pc ≠ .getAllNeighbours) :
    Call.Listed ⟨l, s.trace ++ [(s.loc.pc, a)]⟩ ↔ s.Listed := by
  unfold Call.Listed
  simp [Ne.symm pc]

/-- A step past the list of neighbours keeps the record, once the colours agree. -/
theorem Onward.following {s : Call} {l' : Local} {a : Answer} (onward : Onward s.loc l')
    (inv : Following nbrs s) (pc : s.loc.pc ≠ .getAllNeighbours)
    (reads : ((s.trace ++ [(s.loc.pc, a)]).filterMap colorRead).map Prod.fst = l'.visited) :
    Following nbrs ⟨l', s.trace ++ [(s.loc.pc, a)]⟩ where
  reading := onward.reading
  fresh := fun first => absurd first onward.started
  chosen := onward.chosen
  distinct := by
    dsimp only
    rw [onward.neighbourhood]
    exact inv.distinct
  list := by
    intro u
    dsimp only
    rw [onward.neighbourhood, listed_append pc]
    exact inv.list u
  reads := reads
  sets := by
    intro w
    rw [sets_append, inv.sets w, onward.sent w]

/-- An answer that is not the colour of a neighbour. -/
theorem Onward.following_unread {s : Call} {l' : Local} {a : Answer} (onward : Onward s.loc l')
    (inv : Following nbrs s) (pc : s.loc.pc ≠ .getAllNeighbours)
    (unread : ∀ u, s.loc.pc ≠ .getNodeColor u) (colors : l'.colors = s.loc.colors) :
    Following nbrs ⟨l', s.trace ++ [(s.loc.pc, a)]⟩ := by
  have none : colorRead (s.loc.pc, a) = none := by
    unfold colorRead
    split
    · rename_i u reply same
      exact absurd (congrArg Prod.fst same) (unread u)
    · rfl
  refine onward.following inv pc ?_
  rw [List.filterMap_append, List.filterMap_cons_none none, List.filterMap_nil, List.append_nil,
    inv.reads]
  unfold Local.visited
  rw [colors]

/-- The head of the loop over the neighbours passes on what it is given. -/
theorem Resumed.onward {m l l' : Local} (resumed : Resumed C l l')
    (neighbourhood : m.neighbourhood = l.visited ++ l.todo) (locks : m.locks = l.locks)
    (quiet : m.pc.sent = []) (silent : ∀ w again, m.pc ≠ .set w again) : Onward m l' := by
  have sent : m.sent = l.locks.flatMap fun lock => [.flag lock, .turn lock] := by
    unfold Local.sent
    rw [quiet, locks, List.append_nil]
  cases resumed with
  | choose x empty least =>
      refine ⟨by simp [Pc.Reading, Pc.Active, Pc.Colored], by simp, fun _ _ _ => empty, ?_, ?_⟩
      · rw [neighbourhood]
        rfl
      · intro w
        rw [sent]
        simp [Local.sent, Pc.sent, Write.earlier, silent]
  | inside u rest split range =>
      refine ⟨by simp [Pc.Reading, Pc.Active, Pc.Colored], by simp, by simp, ?_, ?_⟩
      · rw [neighbourhood, split]
        rfl
      · intro w
        rw [sent]
        simp [Local.sent, Pc.sent, silent]
  | outside u rest split range =>
      refine ⟨by simp [Pc.Reading, Pc.Active, Pc.Colored], by simp, by simp, ?_, ?_⟩
      · rw [neighbourhood, split]
        rfl
      · intro w
        rw [sent]
        simp [Local.sent, Pc.sent, silent]

/-- A step that moves only the point in the program. -/
theorem onward_of_pc {l : Local} {pc : Pc} (reading : pc.Reading) (started : pc ≠ .getAllNeighbours)
    (chosen : ∀ x again, pc ≠ .set (.color x) again) (current : pc.current = l.pc.current)
    (sent : ∀ w, w ∈ pc.sent ↔ w ∈ l.pc.sent ∨ ∃ again, l.pc = .set w again) :
    Onward l { l with pc } where
  reading := reading
  started := started
  chosen := fun x again same => absurd same (chosen x again)
  neighbourhood := by
    unfold Local.neighbourhood
    dsimp only
    rw [current]
    rfl
  sent := by
    intro w
    unfold Local.sent
    rw [List.mem_append, List.mem_append, sent w, or_assoc]

/-- Before the colour SET, `write_with_wait` is called for flags and turns only. -/
theorem Following.locking {s : Call} {a : Answer} (inv : Following nbrs s)
    (outcome : Call.Outcome nbrs s a) {w : Write}
    (here : s.loc.pc = .wait w ∨ ∃ again, s.loc.pc = .set w again) :
    ∃ lock, w = .flag lock ∨ w = .turn lock := by
  have uncolored := inv.reading.2
  unfold Call.Outcome at outcome
  rcases here with here | ⟨again, here⟩ <;> rw [here] at uncolored outcome <;>
    cases w <;> simp [Pc.Colored] at uncolored outcome ⊢

/-- With the answer to a SET or a WAIT, its write has been sent. -/
theorem mem_sent_after {pc : Pc} {w : Write} (here : pc = .wait w ∨ ∃ again, pc = .set w again)
    (v : Write) : v ∈ w.earlier ++ [w] ↔ v ∈ pc.sent ∨ ∃ again, pc = .set v again := by
  rcases here with rfl | ⟨again, rfl⟩
  · simp [Pc.sent]
  · cases again <;> simp [Pc.sent, eq_comm]

theorem onward_of_write {l : Local} {pc : Pc} {w : Write} {lock : ClientGraphPetersonLock}
    (here : l.pc = .wait w ∨ ∃ again, l.pc = .set w again)
    (locking : w = .flag lock ∨ w = .turn lock)
    (next : pc = .wait w ∨ pc = .set w true) : Onward l { l with pc } := by
  have current : l.pc.current = w.current := by
    rcases here with here | ⟨again, here⟩ <;> rw [here] <;> rfl
  apply onward_of_pc
  · rcases locking with rfl | rfl <;> rcases next with rfl | rfl <;>
      simp [Pc.Reading, Pc.Active, Pc.Colored]
  · rcases next with rfl | rfl <;> simp
  · rcases locking with rfl | rfl <;> rcases next with rfl | rfl <;> simp
  · rw [current]
    rcases next with rfl | rfl <;> rfl
  · intro v
    rw [← mem_sent_after here v]
    rcases next with rfl | rfl <;> simp [Pc.sent]

/-- Whatever became of it, the caller of `write_with_wait` goes on. -/
theorem onward_of_written {l : Local} {w : Write} {lock : ClientGraphPetersonLock}
    (here : l.pc = .wait w ∨ ∃ again, l.pc = .set w again)
    (locking : w = .flag lock ∨ w = .turn lock) : Onward l (C.written l w) := by
  have current : l.pc.current = w.current := by
    rcases here with here | ⟨again, here⟩ <;> rw [here] <;> rfl
  rcases locking with rfl | rfl
  all_goals
    apply onward_of_pc
    · simp [Pc.Reading, Pc.Active, Pc.Colored]
    · simp
    · simp
    · rw [current]
      rfl
    · intro v
      rw [← mem_sent_after here v]
      simp [Pc.sent, Write.earlier]

theorem Spun.onward {l l' : Local} {lock : ClientGraphPetersonLock}
    {oldFlag oldTurn otherFlag turnVar : Option (Reply ℤ)} {inLoop : Bool}
    (spun : Spun l lock otherFlag turnVar l') (pc : l.pc = .spin lock inLoop oldFlag oldTurn)
    (alive : l'.pc ≠ .crashed) : Onward l l' := by
  cases spun with
  | wait inLoop =>
      apply onward_of_pc <;>
        simp [pc, Pc.Reading, Pc.Active, Pc.Colored, Pc.current, Pc.sent]
  | retry =>
      apply onward_of_pc <;>
        simp [pc, Pc.Reading, Pc.Active, Pc.Colored, Pc.current, Pc.sent]
  | enter =>
      refine ⟨by simp [Pc.Reading, Pc.Active, Pc.Colored], by simp, by simp, ?_, ?_⟩
      · simp [Local.neighbourhood, Local.visited, pc, Pc.current]
      · intro w
        simp [Local.sent, pc, Pc.sent]
  | crash => exact absurd rfl alive

/-- The answer to `get_all_neighbours`. -/
theorem Following.neighbours {s : Call} (inv : Following nbrs s) (pc : s.loc.pc = .getAllNeighbours)
    {a : Answer} {todo : List ℕ} (distinct : todo.Nodup)
    (list : ∀ u, u ∈ todo ↔
      Call.Listed ⟨s.loc, s.trace ++ [(s.loc.pc, a)]⟩ ∧ u ∈ nbrs) :
    Following nbrs
      ⟨{ s.loc with todo := todo, pc := .checkBoundaryNode }, s.trace ++ [(s.loc.pc, a)]⟩ := by
  have unread : s.loc.visited = [] := (List.append_eq_nil_iff.mp (inv.fresh pc)).1
  have neighbourhood : Local.neighbourhood { s.loc with todo := todo, pc := .checkBoundaryNode } =
      todo := by
    have same : s.loc.visited ++ todo = todo := by rw [unread, List.nil_append]
    exact same
  refine ⟨by simp [Pc.Reading, Pc.Active, Pc.Colored], by simp, by simp, ?_, ?_, ?_, ?_⟩
  · dsimp only
    rw [neighbourhood]
    exact distinct
  · intro u
    dsimp only
    rw [neighbourhood]
    exact list u
  · have none : colorRead (s.loc.pc, a) = none := by rw [pc]; rfl
    rw [List.filterMap_append, List.filterMap_cons_none none, List.filterMap_nil, List.append_nil]
    exact inv.reads
  · intro w
    rw [sets_append, inv.sets w]
    simp [Local.sent, pc, Pc.sent]

/-- What one answer does to a call that has not crashed. -/
theorem Following.step {s s' : Call} {a : Answer} (inv : Following nbrs s)
    (outcome : Call.Outcome nbrs s a) (taken : Call.step C s a = some s')
    (alive : s'.loc.pc ≠ .crashed) : Following nbrs s' := by
  obtain ⟨l', answered, same⟩ := Option.map_eq_some_iff.mp taken
  subst same
  cases answer_replied answered with
  | listed reply pc =>
      have members : reply.Nodup ∧ reply.toFinset = nbrs := by
        unfold Call.Outcome at outcome
        rw [pc] at outcome
        exact outcome
      have perm : (sortNeighbours reply).Perm reply := List.perm_insertionSort _ _
      refine inv.neighbours pc (perm.nodup_iff.mpr members.1) fun u => ?_
      have listed : Call.Listed ⟨s.loc, s.trace ++ [(s.loc.pc, .smembers (.value reply))]⟩ :=
        ⟨reply, by rw [pc]; simp⟩
      rw [perm.mem_iff, ← members.2, List.mem_toFinset]
      exact ⟨fun member => ⟨listed, member⟩, fun both => both.2⟩
  | unlisted reply pc failed =>
      refine inv.neighbours pc List.nodup_nil fun u => ?_
      have old := inv.list u
      rw [inv.fresh pc] at old
      rw [old]
      refine and_congr_left fun _ => ?_
      unfold Call.Listed
      simp [failed, eq_comm]
  | boundary reply l' pc resumed =>
      have onward : Onward s.loc l' := resumed.onward
        (by simp [Local.neighbourhood, pc, Pc.current]) rfl (by simp [pc, Pc.sent]) (by simp [pc])
      exact onward.following_unread inv (by simp [pc]) (by simp [pc]) resumed.keeps.1
  | mustLock u reply pc =>
      refine (onward_of_pc ?_ ?_ ?_ ?_ ?_).following_unread inv (by simp [pc]) (by simp [pc]) rfl
      all_goals simp [pc, Pc.Reading, Pc.Active, Pc.Colored, Pc.current, Write.current, Pc.sent,
        Write.earlier]
  | skipLock u reply pc =>
      refine (onward_of_pc ?_ ?_ ?_ ?_ ?_).following_unread inv (by simp [pc]) (by simp [pc]) rfl
      all_goals simp [pc, Pc.Reading, Pc.Active, Pc.Colored, Pc.current, Pc.sent]
  | color u reply l' pc resumed =>
      have onward : Onward s.loc l' := resumed.onward
        (by simp [Local.neighbourhood, Local.visited, pc, Pc.current]) rfl (by simp [pc, Pc.sent])
        (by simp [pc])
      refine onward.following inv (by simp [pc]) ?_
      rw [List.filterMap_append, List.map_append, inv.reads, pc]
      unfold Local.visited
      rw [resumed.keeps.1, List.map_append]
      rfl
  | sent w again reply pc =>
      obtain ⟨lock, locking⟩ := inv.locking outcome (Or.inr ⟨again, pc⟩)
      exact (onward_of_write (Or.inr ⟨again, pc⟩) locking (Or.inl rfl)).following_unread inv
        (by simp [pc]) (by simp [pc]) rfl
  | unsent w again reply pc =>
      obtain ⟨lock, locking⟩ := inv.locking outcome (Or.inr ⟨again, pc⟩)
      refine (onward_of_written (Or.inr ⟨again, pc⟩) locking).following_unread inv
        (by simp [pc]) (by simp [pc]) ?_
      rcases locking with rfl | rfl <;> rfl
  | resend w reply pc =>
      obtain ⟨lock, locking⟩ := inv.locking outcome (Or.inl pc)
      exact (onward_of_write (Or.inl pc) locking (Or.inr rfl)).following_unread inv
        (by simp [pc]) (by simp [pc]) rfl
  | written w reply pc =>
      obtain ⟨lock, locking⟩ := inv.locking outcome (Or.inl pc)
      refine (onward_of_written (Or.inl pc) locking).following_unread inv
        (by simp [pc]) (by simp [pc]) ?_
      rcases locking with rfl | rfl <;> rfl
  | spin lock inLoop oldFlag oldTurn newFlag newTurn reply l' pc spun =>
      exact (spun.onward pc alive).following_unread inv (by simp [pc]) (by simp [pc]) spun.keeps.1
  | crash pc => exact absurd rfl alive

/-- A call either crashes or knows which commands lie behind it. -/
theorem Following.run {i : ℤ} {node : ℕ} {s : Call}
    (run : Run (Call.step C) (Call.Outcome nbrs) (Call.start i node) s)
    (alive : s.loc.pc ≠ .crashed) : Following nbrs s := by
  refine run.invariant (P := fun s => s.loc.pc ≠ .crashed → Following nbrs s)
    (fun _ => start_following i node) ?_ alive
  intro before a after inv outcome taken alive
  refine (inv ?_).step outcome taken alive
  intro crashed
  unfold Call.step Client.answer at taken
  simp [crashed] at taken

/-- At the colour SET the loop over the neighbours is through. -/
theorem Following.issued {s : Call} (inv : Following nbrs s) {x : ℤ}
    (issued : s.loc.pc = .set (.color x) false) :
    s.loc.neighbourhood = s.loc.visited ∧
      ∀ w, s.Sets w ↔ ∃ lock ∈ s.loc.locks, w = .flag lock ∨ w = .turn lock := by
  constructor
  · unfold Local.neighbourhood
    rw [inv.chosen x false issued, issued]
    exact List.append_nil _
  · intro w
    rw [inv.sets w]
    simp [Local.sent, issued, Pc.sent, Write.earlier]

/-- The neighbours whose colour was asked for, whatever the answer. -/
theorem Following.mem_visited {s : Call} (inv : Following nbrs s) {u : ℕ} :
    u ∈ s.loc.visited ↔ ∃ reply, (.getNodeColor u, .get reply) ∈ s.trace := by
  rw [← inv.reads, List.mem_map]
  constructor
  · intro ⟨⟨v, reply⟩, member, same⟩
    subst same
    exact ⟨reply, mem_colorReads.mp member⟩
  · intro ⟨reply, member⟩
    exact ⟨(u, reply), mem_colorReads.mpr member, rfl⟩

end DistributedColoring

import DistributedColoring.ReplicationLink

set_option autoImplicit false

/- WAIT. A master remembers for each client how long the stream was after its latest
command, and replicas tell how far they have come. WAIT answers with the number of replicas
that have come that far; a client that asks for more is blocked until there are enough, its
time is over or another client unblocks it. -/
namespace KeyDB

open CText StreamParser GuardedRun

/-- A replica with what its master knows of it, and the connection on its own side. -/
structure AckReplica where
  /-- In the list `slaves`. Nothing but the count of acknowledgements reads it. -/
  attached : Bool
  /-- `replstate` is `SLAVE_STATE_ONLINE`. -/
  online : Bool
  /-- The replica has all the data of the stream before `since`: it has loaded the snapshot,
  or had it when it resynchronised partially. -/
  loaded : Bool
  replAckOff : ℤ
  /-- Where its part of the stream begins. -/
  since : ℕ
  conn : Connection

/-- A client in `clients_waiting_acks` with its `bpop`. -/
structure Waiter where
  client : ℕ
  timeout : ℤ
  reploffset : ℤ
  numreplicas : ℤ
deriving DecidableEq

/-- History: the number that a client was given, and for what. It is `forced` when it did not
have to be as large as the client asked for. -/
structure Answer where
  client : ℕ
  offset : ℤ
  written : ℤ
  asked : ℤ
  count : ℤ
  forced : Bool

/-- Clients are numbers. Nothing reads `written`, the length of the stream after the latest
command of a client that wrote to it and is over, and `answers`. -/
structure WaitServer where
  fActiveReplica : Bool
  masters : Bool
  stream : Text
  slaves : List AckReplica
  woff : ℕ → ℤ
  waiting : List Waiter
  getAckFromSlaves : Bool
  errors : List (ℕ × Text)
  written : ℕ → ℤ
  answers : List Answer

/-- `getLongFromObjectOrReply` for the number of replicas, `getTimeoutFromObjectOrReply` for
the time in milliseconds. -/
def waitArgs (numreplicas timeout : Text) (mstime : ℤ) : Except Text (ℤ × ℤ) :=
  match string2ll numreplicas with
  | none => .error "value is not an integer or out of range".toList
  | some num =>
      match string2ll timeout with
      | none => .error "timeout is not an integer or out of range".toList
      | some tval =>
          if tval < 0 then .error "timeout is negative".toList
          else .ok (num, if 0 < tval then tval + mstime else tval)

def waitOnReplica : Text :=
  ("WAIT cannot be used with replica instances. Please also note that since Redis 4.0 if a " ++
    "replica is configured to be writable (which is not the default) writes to replicas are " ++
    "just local and are not propagated.").toList

namespace WaitServer

def start (fActiveReplica masters : Bool) : WaitServer where
  fActiveReplica := fActiveReplica
  masters := masters
  stream := []
  slaves := []
  woff _ := 0
  waiting := []
  getAckFromSlaves := false
  errors := []
  written _ := 0
  answers := []

/-- `master_repl_offset` -/
def masterReplOffset (s : WaitServer) : ℤ := s.stream.length

def replicationCountAcksByOffset (s : WaitServer) (offset : ℤ) : ℕ :=
  s.slaves.countP fun r => r.attached && r.online && decide (offset ≤ r.replAckOff)

def answer (s : WaitServer) (w : Waiter) (count : ℤ) (forced : Bool) : Answer :=
  ⟨w.client, w.reploffset, s.written w.client, w.numreplicas, count, forced⟩

def waitCommand (s : WaitServer) (c : ℕ) (multi : Bool) (numreplicas timeout : Text)
    (mstime : ℤ) : WaitServer :=
  if s.masters ∧ ¬ s.fActiveReplica then { s with errors := s.errors ++ [(c, waitOnReplica)] }
  else
    match waitArgs numreplicas timeout mstime with
    | .error message => { s with errors := s.errors ++ [(c, message)] }
    | .ok (num, timeout) =>
        let ackreplicas := s.replicationCountAcksByOffset (s.woff c)
        let w : Waiter := ⟨c, timeout, s.woff c, num⟩
        if num ≤ ackreplicas ∨ multi then
          { s with answers := s.answers ++ [s.answer w ackreplicas multi] }
        else { s with waiting := w :: s.waiting, getAckFromSlaves := true }

/-- The loop over the waiting clients: who is left, and the answers to the others. -/
def processWaiting (s : WaitServer) :
    ℤ → ℤ → List Waiter → List Waiter × List Answer
  | _, _, [] => ([], [])
  | lastOffset, lastNumreplicas, w :: waiting =>
      if lastOffset ≠ 0 ∧ w.reploffset ≤ lastOffset ∧ w.numreplicas ≤ lastNumreplicas then
        let (left, answers) := s.processWaiting lastOffset lastNumreplicas waiting
        (left, s.answer w lastNumreplicas false :: answers)
      else
        let numreplicas := s.replicationCountAcksByOffset w.reploffset
        if w.numreplicas ≤ numreplicas then
          let (left, answers) := s.processWaiting w.reploffset numreplicas waiting
          (left, s.answer w numreplicas false :: answers)
        else
          let (left, answers) := s.processWaiting lastOffset lastNumreplicas waiting
          (w :: left, answers)

def processClientsWaitingReplicas (s : WaitServer) : WaitServer :=
  let (left, answers) := s.processWaiting 0 0 s.waiting
  { s with waiting := left, answers := s.answers ++ answers }

/-- `unblockClientWaitingReplicas` -/
def unblock (s : WaitServer) (c : ℕ) : WaitServer :=
  { s with waiting := s.waiting.filter fun w => w.client ≠ c }

def replyToBlockedClientTimedOut (s : WaitServer) (w : Waiter) : WaitServer :=
  { s with
    answers := s.answers ++ [s.answer w (s.replicationCountAcksByOffset w.reploffset) true] }

def checkBlockedClientTimeout (s : WaitServer) (w : Waiter) (now : ℤ) : WaitServer :=
  if w.timeout ≠ 0 ∧ w.timeout < now then
    (s.replyToBlockedClientTimedOut w).unblock w.client
  else s

/-- CLIENT UNBLOCK for a client that is blocked in WAIT. -/
def clientUnblock (s : WaitServer) (w : Waiter) (unblockError : Bool) : WaitServer :=
  let told :=
    if unblockError then
      { s with
        errors := s.errors ++
          [(w.client, "-UNBLOCKED client unblocked via CLIENT UNBLOCK".toList)] }
    else s.replyToBlockedClientTimedOut w
  told.unblock w.client

/-- Bytes that a command writes to the stream. -/
def feed (s : WaitServer) (bytes : Text) : WaitServer := { s with stream := s.stream ++ bytes }

/-- The end of `processCommand`, for a command that began when the stream was at `before`. -/
def finishCommand (s : WaitServer) (c : ℕ) (before : ℤ) : WaitServer :=
  { s with
    woff := Function.update s.woff c s.masterReplOffset
    written :=
      if before < s.masterReplOffset then Function.update s.written c s.masterReplOffset
      else s.written }

def modifySlave (s : WaitServer) (i : ℕ) (f : AckReplica → Option AckReplica) :
    Option WaitServer :=
  (s.slaves[i]?.bind f).map fun r => { s with slaves := s.slaves.set i r }

/-- REPLCONF ACK -/
def replconfAck (r : AckReplica) (offset : ℤ) : AckReplica :=
  if r.replAckOff < offset then { r with replAckOff := offset } else r

end WaitServer

/-- A command that EXEC calls: a WAIT, or one that writes to the stream. -/
inductive MultiCmd where
  | write (bytes : Text)
  | wait (numreplicas timeout : Text)

/-- A replica's connection reads on in the stream, and an acknowledgement carries an offset
that the replica had applied when it was sent. A command that is put into the queue of a
transaction is no event. -/
inductive WaitEvent where
  | command (c : ℕ) (bytes : Text)
  | wait (c : ℕ) (numreplicas timeout : Text) (mstime : ℤ)
  | exec (c : ℕ) (cmds : List MultiCmd) (mstime : ℤ)
  | processWaiting
  | requestAcks (getack : Text)
  | timeout (w : Waiter) (now : ℤ)
  | clientUnblock (c : ℕ) (w : Waiter) (unblockError : Bool)
  | disconnect (c : ℕ)
  | fullResync (since : ℕ)
  | partialResync (since : ℕ)
  | load (i : ℕ)
  | online (i : ℕ)
  | detach (i : ℕ)
  | input (i : ℕ) (event : InputEvent)
  | ack (i : ℕ) (offset : ℤ)

namespace WaitServer

/-- `call` inside EXEC, where `CLIENT_MULTI` is on and `woff` is that of the command
before. -/
def callMulti (c : ℕ) (mstime : ℤ) (s : WaitServer) : MultiCmd → WaitServer
  | .write bytes => s.feed bytes
  | .wait numreplicas timeout => s.waitCommand c true numreplicas timeout mstime

/-- The connection of a replica reads only what is in the stream. -/
def Available (s : WaitServer) (r : AckReplica) : InputEvent → Prop
  | .read chunk => r.conn.received ++ chunk <+: s.stream.drop r.since
  | _ => True

instance (s : WaitServer) (r : AckReplica) (event : InputEvent) : Decidable (s.Available r event) :=
  match event with
  | .read _ => inferInstanceAs (Decidable (_ <+: _))
  | .process => inferInstanceAs (Decidable True)
  | .unblock => inferInstanceAs (Decidable True)

/-- A replica that has been added to `slaves`, with a part of the stream. -/
def attach (s : WaitServer) (since : ℕ) (resumed : Bool) : Option WaitServer :=
  if since ≤ s.stream.length then
    some { s with slaves := s.slaves ++ [⟨true, resumed, resumed, 0, since, .fresh since⟩] }
  else none

/-- A client that is blocked executes nothing. -/
def Free (s : WaitServer) (c : ℕ) : Prop := ∀ w ∈ s.waiting, w.client ≠ c

instance (s : WaitServer) (c : ℕ) : Decidable (s.Free c) :=
  inferInstanceAs (Decidable (∀ w ∈ s.waiting, w.client ≠ c))

/-- `services` are the replicas' own settings and the outcomes of the commands there. -/
def step (services : ℕ → Service) (s : WaitServer) : WaitEvent → Option WaitServer
  | .command c bytes =>
      if s.Free c then some ((s.feed bytes).finishCommand c s.masterReplOffset) else none
  | .wait c numreplicas timeout mstime =>
      if s.Free c then
        some ((s.waitCommand c false numreplicas timeout mstime).finishCommand c
          s.masterReplOffset)
      else none
  | .exec c cmds mstime =>
      if s.Free c then
        some ((cmds.foldl (callMulti c mstime) s).finishCommand c s.masterReplOffset)
      else none
  | .processWaiting => some s.processClientsWaitingReplicas
  | .requestAcks getack =>
      if s.getAckFromSlaves then some { s.feed getack with getAckFromSlaves := false } else none
  | .timeout w now => if w ∈ s.waiting then some (s.checkBlockedClientTimeout w now) else none
  | .clientUnblock c w unblockError =>
      if s.Free c ∧ w ∈ s.waiting then
        some ((s.clientUnblock w unblockError).finishCommand c s.masterReplOffset)
      else none
  | .disconnect c => some (s.unblock c)
  | .fullResync since => s.attach since false
  | .partialResync since => s.attach since true
  | .load i => s.modifySlave i fun r => some { r with loaded := true }
  | .online i => s.modifySlave i fun r => some { r with online := true }
  | .detach i => s.modifySlave i fun r => some { r with attached := false }
  | .input i event =>
      s.modifySlave i fun r =>
        if r.loaded ∧ s.Available r event then
          (r.conn.step (services i) event).map fun conn => { r with conn := conn }
        else none
  | .ack i offset =>
      s.modifySlave i fun r =>
        if r.loaded ∧ offset ≤ r.conn.reploff then some (replconfAck r offset) else none

end WaitServer

/-- The replica is online, and it has loaded what its part of the stream begins with if there
is anything to load. -/
def AckReplica.hasLoaded (r : AckReplica) (offset : ℤ) : Bool :=
  r.online && (r.loaded || decide (offset ≤ 0))

/-- How many replicas have applied the stream up to an offset. -/
def WaitServer.appliedBy (s : WaitServer) (offset : ℤ) : ℕ :=
  s.slaves.countP fun r => r.hasLoaded offset && decide (offset ≤ r.conn.reploff)

/-- A replica is somewhere in its part of the stream, and has acknowledged less. -/
structure AckReplica.Sound (service : Service) (stream : Text) (r : AckReplica) : Prop where
  inside : r.since ≤ stream.length
  acked : r.replAckOff ≤ r.conn.reploff
  silent : r.loaded = false → r.replAckOff = 0
  reached : Reaches (Connection.step service) (.fresh r.since) r.conn
  arrived : r.conn.received <+: stream.drop r.since

theorem AckReplica.Sound.extend {service : Service} {stream : Text} {r : AckReplica}
    (sound : r.Sound service stream) (more : Text) : r.Sound service (stream ++ more) where
  inside := sound.inside.trans (by rw [List.length_append]; omega)
  acked := sound.acked
  silent := sound.silent
  reached := sound.reached
  arrived := by
    rw [List.drop_append_of_le_length sound.inside]
    exact sound.arrived.trans (List.prefix_append _ _)

/-- A replica goes on: it stays online and loaded, and its offset does not go back. -/
structure AckReplica.Goes (r r' : AckReplica) : Prop where
  online : r.online = true → r'.online = true
  loaded : r.loaded = true → r'.loaded = true
  reploff : r.conn.reploff ≤ r'.conn.reploff

theorem AckReplica.Goes.hasLoaded {r r' : AckReplica} (goes : r.Goes r') {offset : ℤ}
    (before : r.hasLoaded offset = true) : r'.hasLoaded offset = true := by
  simp only [AckReplica.hasLoaded, Bool.and_eq_true, Bool.or_eq_true] at before ⊢
  exact ⟨goes.online before.1, before.2.imp_left goes.loaded⟩

namespace WaitServer

variable {peer : Peer} {services : ℕ → Service} {s s' : WaitServer}

/-- No answer is larger than the number of replicas that have applied the offset by now. -/
structure Sound (services : ℕ → Service) (s : WaitServer) : Prop where
  replica : ∀ (i : ℕ) (r : AckReplica), s.slaves[i]? = some r → r.Sound (services i) s.stream
  written : ∀ c, s.written c ≤ s.woff c
  woff : ∀ c, s.woff c ≤ s.masterReplOffset
  waiting : ∀ w ∈ s.waiting, s.written w.client ≤ w.reploffset
  answers : ∀ a ∈ s.answers, a.written ≤ a.offset ∧ (a.forced = false → a.asked ≤ a.count) ∧
    a.count ≤ s.appliedBy a.offset

/-- A replica whose acknowledgement counts is online, and only one that has loaded its data
has acknowledged anything. -/
theorem count_le_appliedBy (sound : s.Sound services) (offset : ℤ) :
    s.replicationCountAcksByOffset offset ≤ s.appliedBy offset := by
  refine List.countP_mono_left fun r member counted => ?_
  obtain ⟨i, found⟩ := List.mem_iff_getElem?.mp member
  have replica := sound.replica i r found
  have acked := replica.acked
  simp only [AckReplica.hasLoaded, Bool.and_eq_true, Bool.or_eq_true, decide_eq_true_eq]
    at counted ⊢
  obtain ⟨⟨_, online⟩, enough⟩ := counted
  refine ⟨⟨online, ?_⟩, by omega⟩
  cases loaded : r.loaded with
  | true => exact .inl rfl
  | false =>
      have := replica.silent loaded
      exact .inr (by omega)

theorem count_anti (s : WaitServer) {low high : ℤ} (le : low ≤ high) :
    s.replicationCountAcksByOffset high ≤ s.replicationCountAcksByOffset low := by
  refine List.countP_mono_left fun r _ counted => ?_
  simp only [Bool.and_eq_true, decide_eq_true_eq] at counted ⊢
  exact ⟨counted.1, le.trans counted.2⟩

/-- The remembered count is a count for an offset that was as large: so the loop leaves those
for whom there are not enough acknowledgements and no others, and nobody is told too many. -/
theorem processWaiting_spec (s : WaitServer) (waiting : List Waiter) (lastOffset lastNum : ℤ)
    (known : lastOffset ≠ 0 → lastNum = s.replicationCountAcksByOffset lastOffset) :
    (s.processWaiting lastOffset lastNum waiting).1 =
        waiting.filter (fun w =>
          (s.replicationCountAcksByOffset w.reploffset : ℤ) < w.numreplicas) ∧
      ∀ a ∈ (s.processWaiting lastOffset lastNum waiting).2, ∃ w ∈ waiting, ∃ count : ℤ,
        a = s.answer w count false ∧ w.numreplicas ≤ count ∧
          count ≤ s.replicationCountAcksByOffset w.reploffset := by
  induction waiting generalizing lastOffset lastNum with
  | nil => exact ⟨rfl, fun a member => by cases member⟩
  | cons w waiting ih =>
      rw [processWaiting]
      split
      · rename_i remembered
        obtain ⟨some_offset, covers, enough⟩ := remembered
        have same := known some_offset
        have more := s.count_anti covers
        obtain ⟨left, others⟩ := ih lastOffset lastNum known
        simp only
        refine ⟨?_, ?_⟩
        · rw [List.filter_cons, if_neg (by simp only [decide_eq_true_eq]; omega)]
          exact left
        · intro a member
          rcases List.mem_cons.mp member with rfl | later
          · exact ⟨w, List.mem_cons_self, lastNum, rfl, enough, by omega⟩
          · obtain ⟨w', inside, found⟩ := others a later
            exact ⟨w', List.mem_cons_of_mem _ inside, found⟩
      · simp only
        split
        · rename_i enough
          obtain ⟨left, others⟩ := ih w.reploffset
            (s.replicationCountAcksByOffset w.reploffset) fun _ => rfl
          refine ⟨?_, ?_⟩
          · rw [List.filter_cons, if_neg (by simp only [decide_eq_true_eq]; omega)]
            exact left
          · intro a member
            rcases List.mem_cons.mp member with rfl | later
            · exact ⟨w, List.mem_cons_self, _, rfl, enough, Int.le_refl _⟩
            · obtain ⟨w', inside, found⟩ := others a later
              exact ⟨w', List.mem_cons_of_mem _ inside, found⟩
        · rename_i few
          obtain ⟨left, others⟩ := ih lastOffset lastNum known
          refine ⟨?_, ?_⟩
          · rw [List.filter_cons, if_pos (by simp only [decide_eq_true_eq]; omega), ← left]
          · intro a member
            obtain ⟨w', inside, found⟩ := others a member
            exact ⟨w', List.mem_cons_of_mem _ inside, found⟩

theorem start_sound (services : ℕ → Service) (fActiveReplica masters : Bool) :
    (start fActiveReplica masters).Sound services where
  replica i r found := by cases found
  written c := Int.le_refl _
  woff c := Int.le_refl _
  waiting w member := by cases member
  answers a member := by cases member

theorem Sound.feed (sound : s.Sound services) (bytes : Text) : (s.feed bytes).Sound services :=
  { sound with
    replica := fun i r found => (sound.replica i r found).extend bytes
    woff := fun c => (sound.woff c).trans (by
      show (s.stream.length : ℤ) ≤ (s.stream ++ bytes).length
      rw [List.length_append]
      omega) }

/-- The end of a command. A client that has written is not one of those that wait. -/
theorem Sound.finishCommand (sound : s.Sound services) {c : ℕ} {before : ℤ}
    (free : before < s.masterReplOffset → s.Free c) :
    (s.finishCommand c before).Sound services := by
  refine { sound with written := ?_, woff := ?_, waiting := ?_ }
  · intro d
    show (if before < s.masterReplOffset then Function.update s.written c s.masterReplOffset
      else s.written) d ≤ Function.update s.woff c s.masterReplOffset d
    by_cases own : d = c
    · rw [own, Function.update_self]
      split
      · rw [Function.update_self]
      · exact (sound.written c).trans (sound.woff c)
    · rw [Function.update_of_ne own]
      split
      · rw [Function.update_of_ne own]
        exact sound.written d
      · exact sound.written d
  · intro d
    show Function.update s.woff c s.masterReplOffset d ≤ s.masterReplOffset
    by_cases own : d = c
    · rw [own, Function.update_self]
    · rw [Function.update_of_ne own]
      exact sound.woff d
  · intro w member
    show (if before < s.masterReplOffset then Function.update s.written c s.masterReplOffset
      else s.written) w.client ≤ w.reploffset
    split
    · rename_i wrote
      rw [Function.update_of_ne (free wrote w member)]
      exact sound.waiting w member
    · exact sound.waiting w member

theorem Sound.withAnswers (sound : s.Sound services) {new : List Answer}
    (added : ∀ a ∈ new, ∃ w count forced, a = s.answer w count forced ∧
      s.written w.client ≤ w.reploffset ∧ count ≤ s.replicationCountAcksByOffset w.reploffset ∧
        (forced = false → w.numreplicas ≤ count)) :
    ({ s with answers := s.answers ++ new } : WaitServer).Sound services := by
  refine { sound with answers := ?_ }
  intro a member
  rcases List.mem_append.mp member with old | new
  · exact sound.answers a old
  · obtain ⟨w, count, forced, rfl, covers, bound, enough⟩ := added a new
    have applied := count_le_appliedBy sound w.reploffset
    refine ⟨covers, enough, ?_⟩
    show count ≤ s.appliedBy w.reploffset
    omega

theorem Sound.withWaiting (sound : s.Sound services) {left : List Waiter}
    (covers : ∀ w ∈ left, s.written w.client ≤ w.reploffset) :
    ({ s with waiting := left } : WaitServer).Sound services :=
  { sound with waiting := covers }

theorem Sound.waitCommand (sound : s.Sound services) (c : ℕ) (multi : Bool)
    (numreplicas timeout : Text) (mstime : ℤ) :
    (s.waitCommand c multi numreplicas timeout mstime).Sound services := by
  unfold WaitServer.waitCommand
  split
  · exact { sound with }
  · split
    · exact { sound with }
    · simp only
      split
      · rename_i num timeout _ enough
        refine sound.withAnswers fun a member => ?_
        rw [List.mem_singleton] at member
        refine ⟨_, _, multi, member, sound.written c, Int.le_refl _, ?_⟩
        intro plain
        rcases enough with enough | forced
        · exact enough
        · exact absurd (plain.symm.trans forced) (by decide)
      · refine { sound with waiting := ?_ }
        intro w member
        rcases List.mem_cons.mp member with rfl | old
        · exact sound.written c
        · exact sound.waiting w old

theorem Sound.processClientsWaitingReplicas (sound : s.Sound services) :
    s.processClientsWaitingReplicas.Sound services := by
  obtain ⟨left, answered⟩ := s.processWaiting_spec s.waiting 0 0 fun zero => absurd rfl zero
  have told := sound.withAnswers fun a member =>
    have ⟨w, inside, count, same, enough, bound⟩ := answered a member
    ⟨w, count, false, same, sound.waiting w inside, bound, fun _ => enough⟩
  refine told.withWaiting fun w member => ?_
  rw [left] at member
  exact sound.waiting w (List.mem_of_mem_filter member)

theorem Sound.unblock (sound : s.Sound services) (c : ℕ) : (s.unblock c).Sound services :=
  sound.withWaiting fun w member => sound.waiting w (List.mem_of_mem_filter member)

theorem Sound.replyToBlockedClientTimedOut (sound : s.Sound services) {w : Waiter}
    (member : w ∈ s.waiting) : (s.replyToBlockedClientTimedOut w).Sound services :=
  sound.withAnswers fun _ only =>
    ⟨w, _, true, List.mem_singleton.mp only, sound.waiting w member, Int.le_refl _,
      fun forced => by cases forced⟩

theorem Sound.checkBlockedClientTimeout (sound : s.Sound services) {w : Waiter}
    (member : w ∈ s.waiting) (now : ℤ) : (s.checkBlockedClientTimeout w now).Sound services := by
  unfold WaitServer.checkBlockedClientTimeout
  split
  · exact (sound.replyToBlockedClientTimedOut member).unblock w.client
  · exact sound

theorem Sound.clientUnblock (sound : s.Sound services) {w : Waiter} (member : w ∈ s.waiting)
    (unblockError : Bool) : (s.clientUnblock w unblockError).Sound services := by
  unfold WaitServer.clientUnblock
  cases unblockError with
  | true =>
      have told : ({ s with errors := s.errors ++
          [(w.client, "-UNBLOCKED client unblocked via CLIENT UNBLOCK".toList)] } :
          WaitServer).Sound services := { sound with }
      exact told.unblock w.client
  | false => exact (sound.replyToBlockedClientTimedOut member).unblock w.client

/-- In a transaction nobody is blocked. -/
theorem waitCommand_multi (s : WaitServer) (c : ℕ) (numreplicas timeout : Text) (mstime : ℤ) :
    (s.waitCommand c true numreplicas timeout mstime).waiting = s.waiting := by
  unfold WaitServer.waitCommand
  split
  · rfl
  · split
    · rfl
    · simp only [or_true, if_true]

theorem Sound.exec (sound : s.Sound services) (c : ℕ) (mstime : ℤ) (cmds : List MultiCmd) :
    (cmds.foldl (callMulti c mstime) s).Sound services ∧
      (cmds.foldl (callMulti c mstime) s).waiting = s.waiting := by
  induction cmds generalizing s with
  | nil => exact ⟨sound, rfl⟩
  | cons cmd cmds ih =>
      cases cmd with
      | write bytes => exact ih (sound.feed bytes)
      | wait numreplicas timeout =>
          obtain ⟨after, waiting⟩ := ih (sound.waitCommand c true numreplicas timeout mstime)
          exact ⟨after, waiting.trans (s.waitCommand_multi c numreplicas timeout mstime)⟩

theorem appliedBy_append (s : WaitServer) (new : List AckReplica) (offset : ℤ) :
    s.appliedBy offset ≤ ({ s with slaves := s.slaves ++ new } : WaitServer).appliedBy offset := by
  unfold appliedBy
  rw [List.countP_append]
  exact Nat.le_add_right _ _

theorem appliedBy_set {i : ℕ} {r r' : AckReplica} (found : s.slaves[i]? = some r)
    (goes : r.Goes r') (offset : ℤ) :
    s.appliedBy offset ≤
      ({ s with slaves := s.slaves.set i r' } : WaitServer).appliedBy offset := by
  obtain ⟨inside, same⟩ := List.getElem?_eq_some_iff.mp found
  unfold appliedBy
  rw [List.countP_set inside, same]
  by_cases before : (r.hasLoaded offset && decide (offset ≤ r.conn.reploff)) = true
  · have after : (r'.hasLoaded offset && decide (offset ≤ r'.conn.reploff)) = true := by
      simp only [Bool.and_eq_true, decide_eq_true_eq] at before ⊢
      exact ⟨goes.hasLoaded before.1, before.2.trans goes.reploff⟩
    rw [if_pos before, if_pos after]
    omega
  · rw [if_neg before]
    omega

theorem Sound.attach (sound : s.Sound services) {since : ℕ} {resumed : Bool}
    (done : s.attach since resumed = some s') : s'.Sound services := by
  simp only [WaitServer.attach, Option.ite_none_right_eq_some, Option.some.injEq] at done
  obtain ⟨inside, rfl⟩ := done
  refine { sound with replica := ?_, answers := ?_ }
  · intro i r found
    by_cases old : i < s.slaves.length
    · rw [List.getElem?_append_left old] at found
      exact sound.replica i r found
    · rw [List.getElem?_append_right (Nat.not_lt.mp old)] at found
      have same : r = ⟨true, resumed, resumed, 0, since, .fresh since⟩ :=
        List.mem_singleton.mp (List.mem_of_getElem? found)
      subst same
      exact
        { inside := inside
          acked := Int.natCast_nonneg since
          silent := fun _ => rfl
          reached := .refl
          arrived := List.nil_prefix }
  · intro a member
    obtain ⟨covers, enough, bound⟩ := sound.answers a member
    have more := s.appliedBy_append [⟨true, resumed, resumed, 0, since, .fresh since⟩] a.offset
    exact ⟨covers, enough, by omega⟩

theorem Sound.modifySlave (sound : s.Sound services) {i : ℕ}
    {f : AckReplica → Option AckReplica} (done : s.modifySlave i f = some s')
    (kept : ∀ r r', r.Sound (services i) s.stream → f r = some r' →
      r'.Sound (services i) s.stream ∧ r.Goes r') :
    s'.Sound services := by
  obtain ⟨r', modified, rfl⟩ := Option.map_eq_some_iff.mp done
  obtain ⟨r, found, changed⟩ := Option.bind_eq_some_iff.mp modified
  obtain ⟨replica, goes⟩ := kept r r' (sound.replica i r found) changed
  refine { sound with replica := ?_, answers := ?_ }
  · intro j other place
    rw [List.getElem?_set] at place
    split at place
    · rename_i here
      split at place
      · cases place
        exact here ▸ replica
      · cases place
    · exact sound.replica j other place
  · intro a member
    obtain ⟨covers, enough, bound⟩ := sound.answers a member
    have more := appliedBy_set found goes a.offset
    exact ⟨covers, enough, by omega⟩

/-- What the replicas' side has to guarantee: the peer is their master. -/
structure Serves (peer : Peer) (services : ℕ → Service) : Prop where
  same : ∀ i, (services i).peer = peer
  master : peer.master = true

theorem Serves.master_at (serves : Serves peer services) (i : ℕ) :
    (services i).peer.master = true := by
  rw [serves.same i]
  exact serves.master

theorem Sound.input (serves : Serves peer services) {i : ℕ} {r : AckReplica}
    (sound : r.Sound (services i) s.stream) {event : InputEvent} (available : s.Available r event)
    {conn : Connection} (taken : r.conn.step (services i) event = some conn) :
    ({ r with conn := conn } : AckReplica).Sound (services i) s.stream ∧
      r.Goes { r with conn := conn } := by
  have place := Connection.inPlace_of_run sound.reached
  have grows := (place.step taken).2 (serves.master_at i)
  have received := Connection.received_of_step taken
  have arrived : conn.received <+: s.stream.drop r.since := by
    rw [received]
    cases event with
    | read chunk => exact available
    | process => simpa using sound.arrived
    | unblock => simpa using sound.arrived
  exact ⟨⟨sound.inside, sound.acked.trans grows, sound.silent, sound.reached.tail trivial taken,
    arrived⟩, ⟨id, id, grows⟩⟩

theorem Sound.replconfAck {service : Service} {stream : Text} {r : AckReplica} {offset : ℤ}
    (sound : r.Sound service stream) (loaded : r.loaded = true)
    (applied : offset ≤ r.conn.reploff) :
    (replconfAck r offset).Sound service stream ∧ r.Goes (replconfAck r offset) := by
  unfold WaitServer.replconfAck
  split
  · exact ⟨⟨sound.inside, applied, fun not_loaded => by simp [loaded] at not_loaded,
      sound.reached, sound.arrived⟩, ⟨id, id, Int.le_refl _⟩⟩
  · exact ⟨sound, ⟨id, id, Int.le_refl _⟩⟩

theorem waitCommand_stream (s : WaitServer) (c : ℕ) (multi : Bool) (numreplicas timeout : Text)
    (mstime : ℤ) : (s.waitCommand c multi numreplicas timeout mstime).stream = s.stream := by
  unfold WaitServer.waitCommand
  split
  · rfl
  · split
    · rfl
    · simp only
      split <;> rfl

theorem Sound.step (serves : Serves peer services) {event : WaitEvent} (sound : s.Sound services)
    (taken : s.step services event = some s') : s'.Sound services := by
  cases event with
  | command c bytes =>
      simp only [WaitServer.step, Option.ite_none_right_eq_some, Option.some.injEq] at taken
      obtain ⟨free, rfl⟩ := taken
      exact (sound.feed bytes).finishCommand fun _ => free
  | wait c numreplicas timeout mstime =>
      simp only [WaitServer.step, Option.ite_none_right_eq_some, Option.some.injEq] at taken
      obtain ⟨_, rfl⟩ := taken
      refine (sound.waitCommand c false numreplicas timeout mstime).finishCommand fun wrote => ?_
      -- WAIT itself writes nothing.
      rw [masterReplOffset, masterReplOffset, waitCommand_stream] at wrote
      exact absurd wrote (Int.lt_irrefl _)
  | exec c cmds mstime =>
      simp only [WaitServer.step, Option.ite_none_right_eq_some, Option.some.injEq] at taken
      obtain ⟨free, rfl⟩ := taken
      obtain ⟨after, waiting⟩ := sound.exec c mstime cmds
      refine after.finishCommand fun _ w member => ?_
      rw [waiting] at member
      exact free w member
  | processWaiting =>
      cases taken
      exact sound.processClientsWaitingReplicas
  | requestAcks getack =>
      simp only [WaitServer.step, Option.ite_none_right_eq_some, Option.some.injEq] at taken
      obtain ⟨_, rfl⟩ := taken
      exact { sound.feed getack with }
  | timeout w now =>
      simp only [WaitServer.step, Option.ite_none_right_eq_some, Option.some.injEq] at taken
      obtain ⟨member, rfl⟩ := taken
      exact sound.checkBlockedClientTimeout member now
  | clientUnblock c w unblockError =>
      simp only [WaitServer.step, Option.ite_none_right_eq_some, Option.some.injEq] at taken
      obtain ⟨⟨free, member⟩, rfl⟩ := taken
      refine (sound.clientUnblock member unblockError).finishCommand fun _ v left => ?_
      unfold WaitServer.clientUnblock at left
      cases unblockError with
      | true => exact free v (List.mem_of_mem_filter left)
      | false => exact free v (List.mem_of_mem_filter left)
  | disconnect c =>
      cases taken
      exact sound.unblock c
  | fullResync since => exact sound.attach taken
  | partialResync since => exact sound.attach taken
  | load i =>
      refine sound.modifySlave taken fun r r' replica changed => ?_
      cases changed
      exact ⟨{ replica with silent := fun not_loaded => by cases not_loaded },
        ⟨id, fun _ => rfl, Int.le_refl _⟩⟩
  | online i =>
      refine sound.modifySlave taken fun r r' replica changed => ?_
      cases changed
      exact ⟨{ replica with }, ⟨fun _ => rfl, id, Int.le_refl _⟩⟩
  | detach i =>
      refine sound.modifySlave taken fun r r' replica changed => ?_
      cases changed
      exact ⟨{ replica with }, ⟨id, id, Int.le_refl _⟩⟩
  | input i event =>
      refine sound.modifySlave taken fun r r' replica changed => ?_
      simp only [Option.ite_none_right_eq_some] at changed
      obtain ⟨⟨_, available⟩, moved⟩ := changed
      obtain ⟨conn, stepped, rfl⟩ := Option.map_eq_some_iff.mp moved
      exact Sound.input serves replica available stepped
  | ack i offset =>
      refine sound.modifySlave taken fun r r' replica changed => ?_
      simp only [Option.ite_none_right_eq_some, Option.some.injEq] at changed
      obtain ⟨⟨loaded, applied⟩, rfl⟩ := changed
      exact Sound.replconfAck replica loaded applied

theorem sound_of_run (serves : Serves peer services) {fActiveReplica masters : Bool}
    (run : Reaches (WaitServer.step services) (start fActiveReplica masters) s) :
    s.Sound services :=
  run.invariant (start_sound services fActiveReplica masters)
    fun _ _ _ sound _ taken => sound.step serves taken

/-- The commands of its part of the stream that end at or before an offset. -/
def due (peer : Peer) (s : WaitServer) (r : AckReplica) (offset : ℤ) : List (List Text) :=
  ((drain (wireParser peer) ParseState.start (s.stream.drop r.since)).out.filter
    fun q => r.since + q.2 ≤ offset).map Prod.fst

/-- A replica has executed all that its applied offset covers. -/
theorem due_executed (serves : Serves peer services) {i : ℕ} {r : AckReplica} {offset : ℤ}
    (sound : r.Sound (services i) s.stream) (applied : offset ≤ r.conn.reploff) :
    s.due peer r offset <+: r.conn.executed := by
  have covered := (Connection.executed_of_stream sound.reached (serves.master_at i)
    sound.arrived).2
  rw [serves.same i] at covered
  refine .trans ?_ (List.take_prefix
    (Connection.covered (services i).outcomes r.conn.executed.length) r.conn.executed)
  rw [← covered]
  exact (filter_prefix_filter (ends_pairwise (leads_drain _ _ _)) applied).map Prod.fst

-- A WAIT inside a transaction does not wait for what the transaction has written before it.
example : ((step (fun _ => plainService) (start true false)
    (.exec 3 [.write "*1\r\n$4\r\nPING\r\n".toList, .wait "0".toList "0".toList] 5)).map
      fun s => (s.answers.map Answer.offset, s.woff 3)) = some ([0], 14) := by
  decide +kernel

end WaitServer

end KeyDB

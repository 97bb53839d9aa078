import DistributedColoring.Replay

set_option autoImplicit false

/- The CMD_LOG lines of a server for what it replays. Every source uuid has one fake client,
and `replicaReplayCommand` enters itself through these clients, one layer after the other.
A client that is executing a command does not parse its buffer, so a uuid that comes again
inside its own layer leaves its command there, and the assertion at the end of the outer
layer stops the server. -/
namespace DistributedColoring

inductive CommandName
  | set
  | rreplay
  deriving DecidableEq

/-- `getClientRoleName` -/
inductive Role
  | master
  | replica
  | client
  deriving DecidableEq

/-- The last field of a line. -/
inductive CommandSource
  | replicatedFromMaster
  | replicatedToReplica
  | directClient
  deriving DecidableEq

/-- A CMD_LOG line without its time, client id and address. -/
structure LogLine where
  role : Role
  name : CommandName
  source : CommandSource
  deriving DecidableEq

/-- The CMD_LOG line of `logSetGetCommandEvent`, by the flags of the client. -/
def logSetGetCommandEvent (master slave : Bool) (name : CommandName) : List LogLine :=
  if name ≠ .set then []
  else if master then []
  else [⟨if slave then .replica else .client, name,
    if slave then .replicatedToReplica else .directClient⟩]

/-- `g_mapremote[uuid].cFake` -/
structure FakeClient where
  /-- `CLIENT_MASTER` -/
  master : Bool
  /-- `CLIENT_EXECUTING_COMMAND` -/
  executing : Bool
  lastcmd : Option CommandName
  /-- A command in `querybuf` that was not parsed. -/
  unparsed : Bool
  deriving DecidableEq

structure LoggingServer (k N : ℕ) extends Server k N where
  fake : Fin N → FakeClient
  log : List LogLine
  /-- A `serverAssert` has failed. -/
  aborted : Bool

namespace LoggingServer

variable {k N : ℕ}

def setFake (s : LoggingServer k N) (uuid : Fin N) (f : FakeClient → FakeClient) :
    LoggingServer k N :=
  { s with fake := Function.update s.fake uuid (f (s.fake uuid)) }

def withNest (s : LoggingServer k N) (nest : ReplicaNestState) : LoggingServer k N :=
  { s with nest }

def countCommand (s : LoggingServer k N) : LoggingServer k N :=
  { s with commandsExecuted := s.commandsExecuted + 1 }

/-- The flag of the client a command comes from, a link to a master or a fake client. -/
def isMaster (s : LoggingServer k N) : Option (Fin N) → Bool
  | none => true
  | some uuid => (s.fake uuid).master

def noteCommand (s : LoggingServer k N) (name : CommandName) : Option (Fin N) → LoggingServer k N
  | none => s
  | some uuid => s.setFake uuid fun fake => { fake with lastcmd := some name }

/-- `processInputBuffer` on a fake client whose buffer has been given a command; `process`
executes it. -/
def processInputBuffer (s : LoggingServer k N) (uuid : Fin N)
    (process : LoggingServer k N → LoggingServer k N) : LoggingServer k N :=
  -- `FClientReady` fails while the client is executing
  if (s.fake uuid).executing then s.setFake uuid fun fake => { fake with unparsed := true }
  else
    (process (s.setFake uuid fun fake => { fake with executing := true })).setFake uuid
      fun fake => { fake with executing := false }

/-- The end of `replicaReplayCommand`. -/
def replayed (s after : LoggingServer k N) (uuid : Fin N) (mvcc : ℕ) (command : Command k N) :
    LoggingServer k N :=
  let fake := after.fake uuid
  let fExec : Bool := after.commandsExecuted ≠ s.commandsExecuted
  let log :=
    if fExec && fake.lastcmd = some .set then
      after.log ++ [⟨.master, .set, .replicatedFromMaster⟩]
    else after.log
  if fake.unparsed then
    if fExec then { after with log, aborted := true }
    -- the connection is closed and the command not propagated
    else { after.withNest after.nest.pop with log }
  else { after with toServer := s.toServer.replayed after.toServer uuid mvcc command, log }

/-- `replicaReplayCommand` for a well-formed RREPLAY. -/
def replicaReplayCommand (s : LoggingServer k N) (client : Option (Fin N)) (uuid : Fin N)
    (mvcc : ℕ) (command : Command k N) (process : LoggingServer k N → LoggingServer k N) :
    LoggingServer k N :=
  if ¬ s.isMaster client then s.withNest s.nest.cancel
  else if uuid = s.uuid then s.withNest s.nest.cancel
  else
    match s.nest.fPush with
    | (nest, false) => s.withNest nest
    | (nest, true) =>
        if mvcc ≠ 0 ∧ mvcc ≤ s.remote uuid then s.withNest nest.cancel.pop
        else
          let after := ((s.withNest nest).setFake uuid fun fake =>
            { fake with master := true }).processInputBuffer uuid process
          if after.aborted then after
          else s.replayed (after.setFake uuid fun fake => { fake with master := false }) uuid mvcc
            command

/-- `processCommand`, and `call` where the checks after the logging admit the command. CLIENT
PAUSE, which would postpone a SET and have it logged once more, is not in force. -/
def processCommand (admits : Server k N → Command k N → Bool) :
    Command k N → Option (Fin N) → LoggingServer k N → LoggingServer k N
  | .set op => fun client s =>
      let noted := s.noteCommand .set client
      let logged := { noted with
        log := noted.log ++ logSetGetCommandEvent (noted.isMaster client) false .set }
      if admits logged.toServer (.set op) then
        { logged with toServer := Server.call (.set op) logged.toServer }
      else logged
  | .rreplay uuid mvcc command => fun client s =>
      let noted := s.noteCommand .rreplay client
      if admits noted.toServer (.rreplay uuid mvcc command) then
        let after := noted.replicaReplayCommand client uuid mvcc command
          (processCommand admits command (some uuid))
        if after.aborted then after else after.countCommand
      else noted

/-- A message over a link to a master. -/
def receive (admits : Server k N → Command k N → Bool) (s : LoggingServer k N) (stamp : ℕ)
    (command : Command k N) : LoggingServer k N :=
  if s.aborted then s
  else
    let after := processCommand admits command none s
    if after.aborted then after
    else { after with toServer :=
      { Server.propagate stamp after.alsoPropagate after.toServer with alsoPropagate := [] } }

/-- The SETs of a list on a database. -/
def writes (db : Key → Option ℤ) (sets : List (SetCommand k)) : Key → Option ℤ :=
  sets.foldl (fun db op => Function.update db op.key (some op.value)) db

def replicatedLine : LogLine := ⟨.master, .set, .replicatedFromMaster⟩

theorem replicatedLine_not_mem (master slave : Bool) (name : CommandName) :
    replicatedLine ∉ logSetGetCommandEvent master slave name := by
  cases master <;> cases slave <;> cases name <;> decide

/-- What a command inside `layers` of RREPLAY leaves: the SETs it has applied, and a line for
each of them if there is a layer to write it. -/
structure Logged (s s' : LoggingServer k N) (client : Option (Fin N)) (layers : ℕ)
    (sets : List (SetCommand k)) : Prop where
  applied : s'.applied = s.applied ++ sets
  db : s'.db = writes s.db sets
  log : s'.log = s.log ++ List.replicate (if layers = 0 then 0 else sets.length) replicatedLine
  once : sets.length ≤ 1
  executing : ∀ v, (s'.fake v).executing = (s.fake v).executing
  parsed : s'.aborted = false → ∀ v, (s.fake v).executing = false → (s'.fake v).unparsed = false
  last : s'.aborted = false → ∀ v, (s.fake v).executing = true → (s'.fake v).lastcmd =
    if client = some v then some (if layers = 0 then .set else .rreplay) else (s.fake v).lastcmd
  bare : layers = 0 → s'.commandsExecuted = s.commandsExecuted + sets.length ∧
    s'.aborted = s.aborted
  counted : s'.aborted = false → s.commandsExecuted ≤ s'.commandsExecuted
  still : s'.commandsExecuted = s.commandsExecuted → s'.aborted = false →
    ∀ v, (s'.fake v).unparsed = (s.fake v).unparsed

/-- The same for a call of `replicaReplayCommand`, which leaves the names of the commands in
execution alone. -/
structure Entered (s s' : LoggingServer k N) (sets : List (SetCommand k)) : Prop where
  applied : s'.applied = s.applied ++ sets
  db : s'.db = writes s.db sets
  log : s'.log = s.log ++ List.replicate sets.length replicatedLine
  once : sets.length ≤ 1
  executing : ∀ v, (s'.fake v).executing = (s.fake v).executing
  parsed : s'.aborted = false → ∀ v, (s.fake v).executing = false → (s'.fake v).unparsed = false
  last : s'.aborted = false → ∀ v, (s.fake v).executing = true →
    (s'.fake v).lastcmd = (s.fake v).lastcmd
  counted : s'.aborted = false → s.commandsExecuted ≤ s'.commandsExecuted

section Fake

variable (s : LoggingServer k N) (uuid : Fin N) (f : FakeClient → FakeClient)

theorem setFake_aborted : (s.setFake uuid f).aborted = s.aborted := rfl

theorem setFake_fake (v : Fin N) :
    (s.setFake uuid f).fake v = if v = uuid then f (s.fake v) else s.fake v := by
  by_cases same : v = uuid
  · rw [same, if_pos rfl]
    exact Function.update_self ..
  · rw [if_neg same]
    exact Function.update_of_ne same ..

end Fake

section Layers

variable {admits : Server k N → Command k N → Bool} {s : LoggingServer k N}
  {client : Option (Fin N)}

theorem countCommand_toServer (s : LoggingServer k N) : s.countCommand.toServer =
    { s.toServer with commandsExecuted := s.toServer.commandsExecuted + 1 } :=
  rfl

theorem noteCommand_fake (name : CommandName) (client : Option (Fin N)) (v : Fin N) :
    (s.noteCommand name client).fake v =
      if client = some v then { s.fake v with lastcmd := some name } else s.fake v := by
  cases client with
  | none => rfl
  | some uuid =>
      unfold noteCommand
      rw [setFake_fake]
      by_cases same : v = uuid <;> simp [same, eq_comm]

@[simp]
theorem noteCommand_toServer (name : CommandName) (client : Option (Fin N)) :
    (s.noteCommand name client).toServer = s.toServer := by
  cases client <;> rfl

@[simp]
theorem noteCommand_log (name : CommandName) (client : Option (Fin N)) :
    (s.noteCommand name client).log = s.log := by
  cases client <;> rfl

@[simp]
theorem noteCommand_aborted (name : CommandName) (client : Option (Fin N)) :
    (s.noteCommand name client).aborted = s.aborted := by
  cases client <;> rfl

@[simp]
theorem noteCommand_isMaster (name : CommandName) (client client' : Option (Fin N)) :
    (s.noteCommand name client).isMaster client' = s.isMaster client' := by
  cases client' with
  | none => rfl
  | some v =>
      change ((s.noteCommand name client).fake v).master = (s.fake v).master
      rw [noteCommand_fake]
      split <;> rfl

/-- Before a command: a client that is not executing has parsed its buffer. -/
structure Ready (s : LoggingServer k N) (client : Option (Fin N)) : Prop where
  running : s.aborted = false
  master : s.isMaster client = true
  executing : ∀ u, client = some u → (s.fake u).executing = true
  parsed : ∀ v, (s.fake v).executing = false → (s.fake v).unparsed = false

theorem noteCommand_fields (s : LoggingServer k N) (client : Option (Fin N)) (name : CommandName)
    (v : Fin N) : ((s.noteCommand name client).fake v).executing = (s.fake v).executing ∧
      ((s.noteCommand name client).fake v).unparsed = (s.fake v).unparsed ∧
      ((s.noteCommand name client).fake v).lastcmd =
        if client = some v then some name else (s.fake v).lastcmd := by
  rw [noteCommand_fake]
  split <;> exact ⟨rfl, rfl, rfl⟩

theorem Ready.noteCommand (ready : s.Ready client) (name : CommandName) :
    (s.noteCommand name client).Ready client :=
  ⟨by rw [noteCommand_aborted, ready.running], by rw [noteCommand_isMaster, ready.master],
    fun u same => (noteCommand_fields s client name u).1.trans (ready.executing u same),
    fun v idle => (noteCommand_fields s client name v).2.1.trans
      (ready.parsed v ((noteCommand_fields s client name v).1.symm.trans idle))⟩

/-- A command that is not admitted. -/
theorem logged_refused (ready : s.Ready client) (name : CommandName) {layers : ℕ}
    (named : name = if layers = 0 then .set else .rreplay) :
    Logged s (s.noteCommand name client) client layers [] := by
  have fakes := noteCommand_fields s client name
  refine ⟨?_, ?_, ?_, Nat.zero_le _, fun v => (fakes v).1, ?_, ?_, ?_, ?_,
    fun _ _ v => (fakes v).2.1⟩
  · simp
  · simp [writes]
  · simp
  · exact fun _ v idle => (fakes v).2.1.trans (ready.parsed v idle)
  · exact fun _ v _ => named ▸ (fakes v).2.2
  · simp
  · simp

theorem logged_set (ready : s.Ready client) (op : SetCommand k) :
    ∃ sets, Logged s (processCommand admits (.set op) client s) client 0 sets := by
  have silent : logSetGetCommandEvent ((s.noteCommand .set client).isMaster client) false .set =
      [] := by
    rw [noteCommand_isMaster, ready.master]
    rfl
  have fakes := noteCommand_fields s client .set
  unfold processCommand
  simp only [silent, List.append_nil]
  by_cases admitted : admits (s.noteCommand .set client).toServer (.set op) = true
  · rw [if_pos admitted]
    refine ⟨[op], ?_, ?_, ?_, Nat.le_refl _, fun v => (fakes v).1, ?_, fun _ v _ => (fakes v).2.2,
      fun _ => ⟨?_, ?_⟩, ?_, fun _ _ v => (fakes v).2.1⟩
    · simp [Server.call]
    · simp [Server.call, writes]
    · simp
    · exact fun _ v idle => (fakes v).2.1.trans (ready.parsed v idle)
    · simp [Server.call]
    · simp
    · simp [Server.call]
  · rw [if_neg admitted]
    exact ⟨[], logged_refused ready .set rfl⟩

/-- A layer that is refused. -/
theorem entered_refused (ready : s.Ready client) (nest : ReplicaNestState) :
    Entered s (s.withNest nest) [] :=
  ⟨(List.append_nil _).symm, rfl, (List.append_nil _).symm, Nat.zero_le _, fun _ => rfl,
    fun _ v idle => ready.parsed v idle, fun _ _ _ => rfl, fun _ => Nat.le_refl _⟩

/-- A layer whose command is done: `after` has its fake client at rest again. -/
structure Closed (s after : LoggingServer k N) (uuid : Fin N) (layers : ℕ)
    (sets : List (SetCommand k)) : Prop where
  applied : after.applied = s.applied ++ sets
  db : after.db = writes s.db sets
  log : after.log = s.log ++ List.replicate (if layers = 0 then 0 else sets.length) replicatedLine
  once : sets.length ≤ 1
  executing : ∀ v, (after.fake v).executing = (s.fake v).executing
  parsed : ∀ v, (s.fake v).executing = false → v ≠ uuid → (after.fake v).unparsed = false
  last : ∀ v, (s.fake v).executing = true → (after.fake v).lastcmd = (s.fake v).lastcmd
  name : (after.fake uuid).lastcmd = some (if layers = 0 then .set else .rreplay)
  bare : layers = 0 → after.commandsExecuted = s.commandsExecuted + sets.length
  counted : s.commandsExecuted ≤ after.commandsExecuted
  still : after.commandsExecuted = s.commandsExecuted → (after.fake uuid).unparsed = false

/-- The line is written by the layer next to the SET. -/
theorem Closed.line {after : LoggingServer k N} {uuid : Fin N} {layers : ℕ}
    {sets : List (SetCommand k)} (closed : Closed s after uuid layers sets) :
    (if (decide (after.commandsExecuted ≠ s.commandsExecuted) &&
      decide ((after.fake uuid).lastcmd = some .set)) = true then
        after.log ++ [⟨.master, .set, .replicatedFromMaster⟩] else after.log) =
      s.log ++ List.replicate sets.length replicatedLine := by
  have once := closed.once
  rw [closed.log, closed.name]
  by_cases zero : layers = 0
  · have count := closed.bare zero
    by_cases empty : sets.length = 0
    · simp [zero, empty, count]
    · have one : sets.length = 1 := by omega
      simp [zero, one, count, replicatedLine]
  · simp [zero]

theorem Closed.entered {after : LoggingServer k N} {uuid : Fin N} {layers : ℕ}
    {sets : List (SetCommand k)} (closed : Closed s after uuid layers sets) (mvcc : ℕ)
    (command : Command k N) : Entered s (s.replayed after uuid mvcc command) sets := by
  unfold replayed
  simp only [closed.line]
  split
  · rename_i unparsed
    split
    · exact ⟨closed.applied, closed.db, rfl, closed.once, closed.executing, by simp, by simp,
        by simp⟩
    · rename_i same
      rw [closed.still (by simpa using same)] at unparsed
      cases unparsed
  · rename_i clear
    refine ⟨closed.applied, closed.db, rfl, closed.once, closed.executing, ?_,
      fun _ => closed.last, fun _ => closed.counted⟩
    intro _ v idle
    by_cases same : v = uuid
    · rw [same]
      exact Bool.eq_false_iff.mpr clear
    · exact closed.parsed v idle same

/-- The end of a layer whose command was not parsed. -/
theorem entered_unparsed {after : LoggingServer k N} {uuid : Fin N} {mvcc : ℕ}
    {command : Command k N} (unparsed : (after.fake uuid).unparsed = true)
    (server : after.applied = s.applied ∧ after.db = s.db ∧
      after.commandsExecuted = s.commandsExecuted)
    (log : after.log = s.log) (executing : ∀ v, (after.fake v).executing = (s.fake v).executing)
    (parsed : ∀ v, (s.fake v).executing = false → (after.fake v).unparsed = false)
    (last : ∀ v, (after.fake v).lastcmd = (s.fake v).lastcmd) :
    Entered s (s.replayed after uuid mvcc command) [] := by
  obtain ⟨applied, db, count⟩ := server
  unfold replayed
  simp only [unparsed, count, ne_eq, not_true_eq_false, decide_false, Bool.false_and, if_true,
    Bool.false_eq_true, if_false]
  exact ⟨applied.trans (List.append_nil _).symm, db, log.trans (List.append_nil _).symm,
    Nat.zero_le _, executing, fun _ => parsed, fun _ v _ => last v, fun _ => count.ge⟩

/-- Where the fake client of a layer starts to execute. -/
def opening (s : LoggingServer k N) (uuid : Fin N) (nest : ReplicaNestState) :
    LoggingServer k N :=
  ((s.withNest nest).setFake uuid fun fake => { fake with master := true }).setFake uuid
    fun fake => { fake with executing := true }

/-- The server with a fake client in execution. -/
structure Opened (s t : LoggingServer k N) (uuid : Fin N) : Prop where
  applied : t.applied = s.applied
  db : t.db = s.db
  log : t.log = s.log
  commandsExecuted : t.commandsExecuted = s.commandsExecuted
  aborted : t.aborted = s.aborted
  own : t.fake uuid = { s.fake uuid with master := true, executing := true }
  others : ∀ v, v ≠ uuid → t.fake v = s.fake v

theorem opened (s : LoggingServer k N) (uuid : Fin N) (nest : ReplicaNestState) :
    Opened s (s.opening uuid nest) uuid := by
  refine ⟨rfl, rfl, rfl, rfl, rfl, ?_, fun v other => ?_⟩
  · simp only [opening, setFake_fake, if_true]
    rfl
  · simp only [opening, setFake_fake, if_neg other]
    rfl

theorem Opened.ready {t : LoggingServer k N} {uuid : Fin N} (opened : Opened s t uuid)
    (ready : s.Ready client) : t.Ready (some uuid) := by
  refine ⟨opened.aborted.trans ready.running, ?_, ?_, fun v idle => ?_⟩
  · change (t.fake uuid).master = true
    rw [opened.own]
  · rintro _ ⟨⟩
    rw [opened.own]
  · by_cases same : v = uuid
    · rw [same, opened.own] at idle
      cases idle
    · rw [opened.others v same] at idle ⊢
      exact ready.parsed v idle

/-- Back in a layer, the fake client stops executing. -/
theorem Opened.executing {t i : LoggingServer k N} {uuid : Fin N} (opened : Opened s t uuid)
    (idle : (s.fake uuid).executing = false)
    (kept : ∀ v, (i.fake v).executing = (t.fake v).executing) (v : Fin N) :
    ((i.setFake uuid fun fake => { fake with executing := false }).fake v).executing =
      (s.fake v).executing := by
  rw [setFake_fake]
  split
  · rename_i same
    rw [same, idle]
  · rename_i other
    rw [kept, opened.others v other]

theorem Opened.closed {t i : LoggingServer k N} {uuid : Fin N} (opened : Opened s t uuid)
    (ready : s.Ready client) (idle : (s.fake uuid).executing = false) {layers : ℕ}
    {sets : List (SetCommand k)} (logged : Logged t i (some uuid) layers sets)
    (going : i.aborted = false) :
    Closed s ((i.setFake uuid fun fake => { fake with executing := false }).setFake uuid
      fun fake => { fake with master := false }) uuid layers sets := by
  -- the last two flags to change are not looked at any more
  have fakes : ∀ v, let fake := ((i.setFake uuid fun fake =>
        { fake with executing := false }).setFake uuid fun fake =>
        { fake with master := false }).fake v
      fake.executing = (s.fake v).executing ∧ fake.lastcmd = (i.fake v).lastcmd ∧
        fake.unparsed = (i.fake v).unparsed := by
    intro v
    have same := opened.executing idle logged.executing v
    simp only [setFake_fake] at same ⊢
    split <;> simp_all
  have last := logged.last going
  have log := logged.log
  rw [opened.log] at log
  refine ⟨opened.applied ▸ logged.applied, opened.db ▸ logged.db, log, logged.once,
    fun v => (fakes v).1, ?_, ?_, ?_, ?_, ?_, ?_⟩
  · intro v still other
    rw [(fakes v).2.2]
    exact logged.parsed going v (by rw [opened.others v other, still])
  · intro v busy
    have other : v ≠ uuid := by
      rintro rfl
      rw [idle] at busy
      cases busy
    rw [(fakes v).2.1, last v (by rw [opened.others v other, busy]),
      if_neg (by simpa using other.symm), opened.others v other]
  · rw [(fakes uuid).2.1, last uuid (by rw [opened.own]), if_pos rfl]
  · exact fun zero => opened.commandsExecuted ▸ (logged.bare zero).1
  · exact opened.commandsExecuted ▸ logged.counted going
  · intro same
    rw [(fakes uuid).2.2, logged.still (same.trans opened.commandsExecuted.symm) going,
      opened.own]
    exact ready.parsed uuid idle

theorem Opened.entered {t i : LoggingServer k N} {uuid : Fin N} (opened : Opened s t uuid)
    (ready : s.Ready client) (idle : (s.fake uuid).executing = false) {layers : ℕ}
    {sets : List (SetCommand k)} (logged : Logged t i (some uuid) layers sets) (mvcc : ℕ)
    (command : Command k N) :
    let after := i.setFake uuid fun fake => { fake with executing := false }
    Entered s (if after.aborted then after
      else s.replayed (after.setFake uuid fun fake => { fake with master := false }) uuid mvcc
        command) sets := by
  dsimp only
  rw [setFake_aborted]
  by_cases aborted : i.aborted = true
  · have log := logged.log
    have more : layers ≠ 0 := by
      intro zero
      rw [(logged.bare zero).2, opened.aborted, ready.running] at aborted
      cases aborted
    rw [if_neg more, opened.log] at log
    rw [if_pos aborted]
    refine ⟨opened.applied ▸ logged.applied, opened.db ▸ logged.db, log, logged.once,
      opened.executing idle logged.executing, ?_, ?_, ?_⟩ <;>
      exact fun going => absurd (aborted.symm.trans going) (by decide)
  · rw [if_neg aborted]
    exact (opened.closed ready idle logged (Bool.eq_false_iff.mpr aborted)).entered mvcc command

theorem processInputBuffer_idle {uuid : Fin N} (idle : (s.fake uuid).executing = false)
    (nest : ReplicaNestState) (process : LoggingServer k N → LoggingServer k N) :
    ((s.withNest nest).setFake uuid fun fake =>
      { fake with master := true }).processInputBuffer uuid process =
        (process (s.opening uuid nest)).setFake uuid fun fake =>
          { fake with executing := false } := by
  unfold processInputBuffer
  rw [if_neg]
  · rfl
  · rw [setFake_fake, if_pos rfl]
    exact Bool.eq_false_iff.mp idle

/-- A layer that is let through, around a command that `process` executes. -/
theorem entered_layer (ready : s.Ready client) (uuid : Fin N) (nest : ReplicaNestState) (mvcc : ℕ)
    (command : Command k N) {process : LoggingServer k N → LoggingServer k N} {layers : ℕ}
    (inner : ∀ t, Ready t (some uuid) → ∃ sets, Logged t (process t) (some uuid) layers sets) :
    ∃ sets, Entered s
      (let after := ((s.withNest nest).setFake uuid fun fake =>
        { fake with master := true }).processInputBuffer uuid process
      if after.aborted then after
      else s.replayed (after.setFake uuid fun fake => { fake with master := false }) uuid mvcc
        command) sets := by
  by_cases busy : (s.fake uuid).executing = true
  · have executing : (((s.withNest nest).setFake uuid fun fake =>
        { fake with master := true }).fake uuid).executing = true := by
      rw [setFake_fake, if_pos rfl]
      exact busy
    rw [processInputBuffer, if_pos executing]
    refine ⟨[], ?_⟩
    dsimp only
    rw [setFake_aborted, setFake_aborted, if_neg (by simp [withNest, ready.running])]
    refine entered_unparsed ?_ ⟨rfl, rfl, rfl⟩ rfl (fun v => ?_) (fun v idle => ?_) (fun v => ?_)
    · simp only [setFake_fake, if_true]
    · simp only [setFake_fake]
      split <;> rfl
    · have other : v ≠ uuid := by
        rintro rfl
        rw [busy] at idle
        cases idle
      simp only [setFake_fake, if_neg other]
      exact ready.parsed v idle
    · simp only [setFake_fake]
      split <;> rfl
  · have idle : (s.fake uuid).executing = false := Bool.eq_false_iff.mpr busy
    rw [processInputBuffer_idle idle]
    obtain ⟨sets, logged⟩ := inner _ ((opened s uuid nest).ready ready)
    exact ⟨sets, (opened s uuid nest).entered ready idle logged mvcc command⟩

theorem logged_layer (ready : s.Ready client) (uuid : Fin N) (mvcc : ℕ) (command : Command k N)
    {layers : ℕ} (inner : ∀ t, Ready t (some uuid) →
      ∃ sets, Logged t (processCommand admits command (some uuid) t) (some uuid) layers sets) :
    ∃ sets, Logged s (processCommand admits (.rreplay uuid mvcc command) client s) client
      (layers + 1) sets := by
  have fakes := noteCommand_fields s client .rreplay
  have noted := ready.noteCommand .rreplay
  obtain ⟨sets, entered⟩ : ∃ sets, Entered (s.noteCommand .rreplay client)
      ((s.noteCommand .rreplay client).replicaReplayCommand client uuid mvcc command
        (processCommand admits command (some uuid))) sets := by
    unfold replicaReplayCommand
    rw [if_neg (by simp [noted.master])]
    split
    · exact ⟨[], entered_refused noted _⟩
    · split
      · exact ⟨[], entered_refused noted _⟩
      · split
        · exact ⟨[], entered_refused noted _⟩
        · exact entered_layer noted uuid _ mvcc command inner
  unfold processCommand
  by_cases admitted : admits (s.noteCommand .rreplay client).toServer (.rreplay uuid mvcc command)
  swap
  · rw [if_neg admitted]
    exact ⟨[], logged_refused ready .rreplay rfl⟩
  rw [if_pos admitted]
  refine ⟨sets, ?_⟩
  generalize (s.noteCommand .rreplay client).replicaReplayCommand client uuid mvcc command
    (processCommand admits command (some uuid)) = r at entered
  obtain ⟨applied, db, log, once, executing, parsed, last, counted⟩ := entered
  simp only [noteCommand_toServer, noteCommand_log] at applied db log counted
  have executing' := fun v => (executing v).trans (fakes v).1
  dsimp only
  split
  · rename_i aborted
    refine ⟨applied, db, log, once, executing', ?_, ?_, by simp, ?_, ?_⟩
    · exact fun going => absurd (aborted.symm.trans going) (by decide)
    · exact fun going => absurd (aborted.symm.trans going) (by decide)
    · exact fun going => absurd (aborted.symm.trans going) (by decide)
    · exact fun _ going => absurd (aborted.symm.trans going) (by decide)
  · refine ⟨applied, db, log, once, executing', ?_, ?_, by simp, ?_, ?_⟩
    · exact fun going v idle => parsed going v ((fakes v).1.trans idle)
    · exact fun going v busy => (last going v ((fakes v).1.trans busy)).trans (fakes v).2.2
    · exact fun going => Nat.le_succ_of_le (counted going)
    · exact fun same going => absurd same (Nat.lt_succ_of_le (counted going)).ne'

/-- Layer by layer, from the SET outwards. -/
theorem logged_ofHops (admits : Server k N → Command k N → Bool) (op : SetCommand k)
    (hops : List (Fin N × ℕ)) : ∀ (s : LoggingServer k N) (client : Option (Fin N)),
      s.Ready client → ∃ sets,
        Logged s (processCommand admits (.ofHops hops op) client s) client hops.length sets := by
  induction hops with
  | nil => exact fun s client ready => logged_set ready op
  | cons hop rest ih => exact fun s client ready => logged_layer ready hop.1 hop.2 _ fun t => ih t _

/-- The server goes on as `result`, and the buffers of `kept` are as they were. -/
structure Agrees (s s' : LoggingServer k N) (result : Server k N) (kept : Fin N → Prop) : Prop where
  server : s'.toServer = result
  running : s'.aborted = false
  unparsed : ∀ v, kept v → (s'.fake v).unparsed = (s.fake v).unparsed

/-- A layer does to the server what it does in Replay, if the command inside does and leaves
the buffer of the fake client alone. -/
theorem replicaReplayCommand_agrees (ready : s.Ready client) {uuid : Fin N} (mvcc : ℕ)
    (command : Command k N) (idle : (s.fake uuid).executing = false)
    {process : LoggingServer k N → LoggingServer k N} {run : Server k N → Server k N}
    {kept : Fin N → Prop} (own : kept uuid)
    (inner : ∀ nest, Agrees s (process (s.opening uuid nest)) (run { s.toServer with nest }) kept) :
    Agrees s (s.replicaReplayCommand client uuid mvcc command process)
      (s.toServer.replicaReplayCommand uuid mvcc command run) kept := by
  unfold replicaReplayCommand Server.replicaReplayCommand
  rw [if_neg (by simp [ready.master])]
  by_cases echo : uuid = s.uuid
  · rw [if_pos echo, if_pos echo]
    exact ⟨rfl, ready.running, fun _ _ => rfl⟩
  rw [if_neg echo, if_neg echo]
  obtain ⟨nest, pushed⟩ := s.nest.fPush
  cases pushed with
  | false => exact ⟨rfl, ready.running, fun _ _ => rfl⟩
  | true =>
      by_cases stale : mvcc ≠ 0 ∧ mvcc ≤ s.remote uuid
      · simp only [if_pos stale]
        exact ⟨rfl, ready.running, fun _ _ => rfl⟩
      simp only [if_neg stale]
      obtain ⟨server, going, unparsed⟩ := inner nest
      rw [processInputBuffer_idle idle, setFake_aborted, if_neg (by simp [going])]
      have left : ∀ v, ((((process (s.opening uuid nest)).setFake uuid
          fun fake => { fake with executing := false }).setFake uuid
          fun fake => { fake with master := false }).fake v).unparsed =
          ((process (s.opening uuid nest)).fake v).unparsed := by
        intro v
        simp only [setFake_fake]
        split <;> rfl
      unfold replayed
      rw [if_neg (by rw [left, unparsed uuid own, ready.parsed uuid idle]; decide)]
      refine ⟨?_, going, fun v keep => (left v).trans (unparsed v keep)⟩
      change s.toServer.replayed (process (s.opening uuid nest)).toServer uuid mvcc command = _
      rw [server]

/-- Where no uuid comes twice, the server is the one of Replay. -/
theorem processCommand_agrees (op : SetCommand k) (hops : List (Fin N × ℕ)) :
    ∀ (s : LoggingServer k N) (client : Option (Fin N)), s.Ready client →
      (hops.map Prod.fst).Nodup → (∀ v ∈ hops.map Prod.fst, (s.fake v).executing = false) →
      Agrees s (processCommand (fun _ _ => true) (.ofHops hops op) client s)
        (Server.call (.ofHops hops op) s.toServer) (· ∉ hops.map Prod.fst) := by
  induction hops with
  | nil =>
      intro s client ready _ _
      refine ⟨?_, ?_, fun v _ => (noteCommand_fields s client .set v).2.1⟩
      · change Server.call (.set op) (s.noteCommand .set client).toServer = _
        rw [noteCommand_toServer]
        rfl
      · exact (noteCommand_aborted .set client).trans ready.running
  | cons hop rest ih =>
      intro s client ready distinct idle
      obtain ⟨uuid, mvcc⟩ := hop
      rw [List.map_cons, List.nodup_cons] at distinct
      have fakes := noteCommand_fields s client .rreplay
      have noted := ready.noteCommand .rreplay
      have first : ((s.noteCommand .rreplay client).fake uuid).executing = false :=
        (fakes uuid).1.trans (idle uuid (by simp))
      have inner : ∀ nest, Agrees (s.noteCommand .rreplay client)
          (processCommand (fun _ _ => true) (.ofHops rest op) (some uuid)
            ((s.noteCommand .rreplay client).opening uuid nest))
          (Server.call (.ofHops rest op) { (s.noteCommand .rreplay client).toServer with nest })
          (· ∉ rest.map Prod.fst) := by
        intro nest
        have open' := opened (s.noteCommand .rreplay client) uuid nest
        have agrees := ih _ (some uuid) (open'.ready noted) distinct.2 (by
          intro v member
          have other : v ≠ uuid := fun same => distinct.1 (same ▸ member)
          rw [open'.others v other, (fakes v).1]
          exact idle v (List.mem_cons_of_mem _ member))
        refine ⟨agrees.server, agrees.running, fun v outside => ?_⟩
        rw [agrees.unparsed v outside]
        by_cases same : v = uuid
        · rw [same, open'.own]
        · rw [open'.others v same]
      obtain ⟨server, going, unparsed⟩ :=
        replicaReplayCommand_agrees noted mvcc (.ofHops rest op) first distinct.1 inner
      rw [noteCommand_toServer] at server
      have whole : processCommand (fun _ _ => true) (.ofHops ((uuid, mvcc) :: rest) op) client s =
          ((s.noteCommand .rreplay client).replicaReplayCommand client uuid mvcc (.ofHops rest op)
            (processCommand (fun _ _ => true) (.ofHops rest op) (some uuid))).countCommand :=
        if_neg (Bool.eq_false_iff.mp going)
      rw [whole]
      refine ⟨?_, going, fun v outside => ?_⟩
      · rw [countCommand_toServer, server]
        rfl
      · rw [List.map_cons, List.mem_cons, not_or] at outside
        exact (unparsed v outside.2).trans (fakes v).2.1

end Layers

/-- Between two messages. -/
structure Quiet (s : LoggingServer k N) : Prop where
  idle : ∀ v, (s.fake v).executing = false
  parsed : s.aborted = false → ∀ v, (s.fake v).unparsed = false

/-- A SET in RREPLAY, with the layers inside the first one and the stamp that the server takes
if it propagates the message. -/
structure Arrival (k N : ℕ) where
  stamp : ℕ
  layer : Fin N × ℕ
  inner : List (Fin N × ℕ)
  op : SetCommand k

def Arrival.hops (a : Arrival k N) : List (Fin N × ℕ) := a.layer :: a.inner

def receiveAll (admits : Server k N → Command k N → Bool) (s : LoggingServer k N)
    (arrivals : List (Arrival k N)) : LoggingServer k N :=
  arrivals.foldl (fun s a => s.receive admits a.stamp (.ofHops a.hops a.op)) s

theorem propagate_server (stamp : ℕ) (commands : List (Command k N)) (s : Server k N) :
    (Server.propagate stamp commands s).applied = s.applied ∧
      (Server.propagate stamp commands s).db = s.db := by
  induction commands generalizing stamp s with
  | nil => exact ⟨rfl, rfl⟩
  | cons command rest ih => exact ih (stamp + 1) (s.feed stamp command)

theorem Quiet.ready {s : LoggingServer k N} (quiet : s.Quiet) (running : s.aborted = false) :
    s.Ready none :=
  ⟨running, rfl, by simp, fun v _ => quiet.parsed running v⟩

/-- Where no uuid comes twice in a message, receiving it is `Server.replay`. -/
theorem Quiet.receive_eq_replay {s : LoggingServer k N} (quiet : s.Quiet)
    (running : s.aborted = false) (a : Arrival k N) (distinct : (a.hops.map Prod.fst).Nodup) :
    (s.receive (fun _ _ => true) a.stamp (.ofHops a.hops a.op)).toServer =
      s.toServer.replay a.stamp (.ofHops a.hops a.op) := by
  obtain ⟨server, going, _⟩ := processCommand_agrees a.op a.hops s none (quiet.ready running)
    distinct fun v _ => quiet.idle v
  unfold LoggingServer.receive Server.replay
  rw [if_neg (Bool.eq_false_iff.mp running)]
  dsimp only
  rw [if_neg (Bool.eq_false_iff.mp going), server]

/-- One message leaves a line for each SET that it applies. -/
theorem Quiet.receive {s : LoggingServer k N} (quiet : s.Quiet)
    (admits : Server k N → Command k N → Bool) (a : Arrival k N) :
    ∃ sets, let s' := s.receive admits a.stamp (.ofHops a.hops a.op)
      s'.Quiet ∧ s'.applied = s.applied ++ sets ∧ s'.db = writes s.db sets ∧
        s'.log = s.log ++ List.replicate sets.length replicatedLine := by
  unfold LoggingServer.receive
  by_cases aborted : s.aborted = true
  · rw [if_pos aborted]
    exact ⟨[], quiet, by simp, rfl, by simp⟩
  · have running : s.aborted = false := Bool.eq_false_iff.mpr aborted
    obtain ⟨sets, logged⟩ := logged_ofHops admits a.op a.hops s none
      (quiet.ready running)
    have log := logged.log
    rw [if_neg (by simp [Arrival.hops])] at log
    have after : (processCommand admits (.ofHops a.hops a.op) none s).Quiet :=
      ⟨fun v => (logged.executing v).trans (quiet.idle v),
        fun going v => logged.parsed going v (quiet.idle v)⟩
    rw [if_neg aborted]
    refine ⟨sets, ?_⟩
    dsimp only
    split
    · exact ⟨after, logged.applied, logged.db, log⟩
    · have server := propagate_server a.stamp
        (processCommand admits (.ofHops a.hops a.op) none s).alsoPropagate
        (processCommand admits (.ofHops a.hops a.op) none s).toServer
      exact ⟨⟨after.idle, after.parsed⟩, server.1.trans logged.applied,
        server.2.trans logged.db, log⟩

/-- So do any messages. -/
theorem Quiet.receiveAll {s : LoggingServer k N} (quiet : s.Quiet)
    (admits : Server k N → Command k N → Bool) (arrivals : List (Arrival k N)) :
    ∃ sets, let s' := s.receiveAll admits arrivals
      s'.Quiet ∧ s'.applied = s.applied ++ sets ∧ s'.db = writes s.db sets ∧
        s'.log = s.log ++ List.replicate sets.length replicatedLine := by
  induction arrivals generalizing s with
  | nil => exact ⟨[], quiet, by simp [LoggingServer.receiveAll], rfl,
      by simp [LoggingServer.receiveAll]⟩
  | cons a rest ih =>
      obtain ⟨first, next, applied, db, log⟩ := quiet.receive admits a
      obtain ⟨more, last, applied', db', log'⟩ := ih next
      refine ⟨first ++ more, last, applied'.trans ?_, db'.trans ?_, log'.trans ?_⟩
      · rw [applied, List.append_assoc]
      · rw [db, writes, writes, writes, List.foldl_append]
      · rw [log, List.append_assoc, List.length_append, List.replicate_add]

/-- Whatever messages arrive, `replicaReplayCommand` has written one line for each SET that
they have applied, and `logSetGetCommandEvent` none. -/
theorem replicated_sets_logged_once (admits : Server k N → Command k N → Bool)
    (s : LoggingServer k N) (quiet : s.Quiet) (arrivals : List (Arrival k N)) :
    ∃ sets lines, (s.receiveAll admits arrivals).applied = s.applied ++ sets ∧
      (s.receiveAll admits arrivals).db = writes s.db sets ∧
      (s.receiveAll admits arrivals).log = s.log ++ lines ∧
      (lines.filter fun line => line.source = .replicatedFromMaster).length = sets.length ∧
      ∀ line ∈ lines, ∀ master slave name, line ∉ logSetGetCommandEvent master slave name := by
  obtain ⟨sets, _, applied, db, log⟩ := quiet.receiveAll admits arrivals
  refine ⟨sets, _, applied, db, log, ?_, ?_⟩
  · simp [replicatedLine]
  · intro line member master slave name
    rw [List.eq_of_mem_replicate member]
    exact replicatedLine_not_mem master slave name

/-- One of three servers, before its first message. -/
def firstOfThree : LoggingServer 1 3 where
  uuid := ⟨0, by decide⟩
  multimasterNoForward := false
  db _ := none
  remote _ := 0
  nest := ⟨0, false⟩
  commandsExecuted := 0
  alsoPropagate := []
  mvccTstamp := 0
  backlog := []
  applied := []
  fake _ := ⟨false, false, none, false⟩
  log := []
  aborted := false

/-- A write that comes over two other servers, straight from its own server, and as an echo. -/
def threeArrivals : List (Arrival 1 3) :=
  let op : SetCommand 1 := ⟨⟨0, by decide⟩, .color 4, 7⟩
  [⟨1, (⟨2, by decide⟩, 5), [(⟨1, by decide⟩, 3)], op⟩, ⟨2, (⟨1, by decide⟩, 3), [], op⟩,
    ⟨3, (⟨2, by decide⟩, 6), [(⟨0, by decide⟩, 1)], op⟩]

/-- The first of the three messages is applied and logged, and the others are not. -/
theorem replicated_sets_three : firstOfThree.Quiet ∧
    (firstOfThree.receiveAll (fun _ _ => true) threeArrivals).applied.length = 1 ∧
    (firstOfThree.receiveAll (fun _ _ => true) threeArrivals).log = [replicatedLine] ∧
    ∃ sets lines,
      (firstOfThree.receiveAll (fun _ _ => true) threeArrivals).applied = [] ++ sets ∧
      (firstOfThree.receiveAll (fun _ _ => true) threeArrivals).log = [] ++ lines ∧
      (lines.filter fun line => line.source = .replicatedFromMaster).length = sets.length := by
  have quiet : firstOfThree.Quiet := ⟨fun _ => rfl, fun _ _ => rfl⟩
  obtain ⟨sets, lines, applied, _, log, count, _⟩ :=
    replicated_sets_logged_once (fun _ _ => true) firstOfThree quiet threeArrivals
  exact ⟨quiet, by decide, by decide, sets, lines, applied, log, count⟩

end LoggingServer

end DistributedColoring

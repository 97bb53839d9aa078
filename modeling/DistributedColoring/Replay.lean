import DistributedColoring.Client
import DistributedColoring.StampedFlood

set_option autoImplicit false

/- Active replication in replication.cpp. A server writes every SET it executes to
its replication stream as RREPLAY with its own uuid and a new mvcc stamp;
`replicaReplayCommand` executes what arrives from the stream of another server and
writes it to its own stream again, one RREPLAY deeper. A server stands for its uuid. -/
namespace DistributedColoring

open StampedFlood (Message noteAll passes fresh note)

/-- A SET; the client that sent it is history and is read by nobody. -/
structure SetCommand (k : ℕ) where
  client : Fin k
  key : Key
  value : ℤ
  deriving DecidableEq

inductive Command (k N : ℕ)
  | set (op : SetCommand k)
  | rreplay (uuid : Fin N) (mvcc : ℕ) (command : Command k N)

/-- `REPLAY_MAX_NESTING` -/
def replayMaxNesting : ℕ := 64

structure ReplicaNestState where
  cnesting : ℕ
  fCancelled : Bool

namespace ReplicaNestState

/-- The state after `FPush` and its result. -/
def fPush (n : ReplicaNestState) : ReplicaNestState × Bool :=
  if n.cnesting = replayMaxNesting then ({ n with fCancelled := true }, false)
  else (⟨n.cnesting + 1, if n.cnesting = 0 then false else n.fCancelled⟩, true)

def pop (n : ReplicaNestState) : ReplicaNestState := { n with cnesting := n.cnesting - 1 }

def cancel (n : ReplicaNestState) : ReplicaNestState := { n with fCancelled := true }

def fFirst (n : ReplicaNestState) : Bool := n.cnesting = 1

end ReplicaNestState

structure Server (k N : ℕ) where
  uuid : Fin N
  multimasterNoForward : Bool
  db : Key → Option ℤ
  /-- `g_mapremote[uuid].mvcc` -/
  remote : Fin N → ℕ
  nest : ReplicaNestState
  commandsExecuted : ℕ
  /-- Commands given to `alsoPropagate` by the command in hand. -/
  alsoPropagate : List (Command k N)
  mvccTstamp : ℕ
  /-- The replication stream. -/
  backlog : List (Command k N)
  /-- History: the SETs executed, in order. -/
  applied : List (SetCommand k)

namespace Server

variable {k N : ℕ}

/-- The end of `replicaReplayCommand`, once the command buffer has been executed. -/
def replayed (s after : Server k N) (uuid : Fin N) (mvcc : ℕ) (command : Command k N) :
    Server k N :=
  let fExec := after.commandsExecuted ≠ s.commandsExecuted
  let forward := !after.nest.fCancelled && after.nest.fFirst && !after.multimasterNoForward
  { after with
    remote :=
      if fExec ∧ after.remote uuid < mvcc then Function.update after.remote uuid mvcc
      else after.remote
    alsoPropagate :=
      if forward then after.alsoPropagate ++ [.rreplay uuid mvcc command]
      else after.alsoPropagate
    nest := after.nest.pop }

/-- `replicaReplayCommand` for a well-formed RREPLAY from a master; `run` executes the
command buffer on the fake client. -/
def replicaReplayCommand (s : Server k N) (uuid : Fin N) (mvcc : ℕ) (command : Command k N)
    (run : Server k N → Server k N) : Server k N :=
  if uuid = s.uuid then { s with nest := s.nest.cancel }
  else
    match s.nest.fPush with
    | (nest, false) => { s with nest }
    | (nest, true) =>
        if mvcc ≠ 0 ∧ mvcc ≤ s.remote uuid then { s with nest := nest.cancel.pop }
        else s.replayed (run { s with nest }) uuid mvcc command

/-- `call`: the command's function, then one more command executed. -/
def call : Command k N → Server k N → Server k N
  | .set op => fun s =>
      { s with
        db := Function.update s.db op.key (some op.value)
        applied := s.applied ++ [op]
        commandsExecuted := s.commandsExecuted + 1 }
  | .rreplay uuid mvcc command => fun s =>
      let after := s.replicaReplayCommand uuid mvcc command (call command)
      { after with commandsExecuted := after.commandsExecuted + 1 }

/-- `replicationFeedSlavesCore` with the next stamp of `incrementMvccTstamp`. -/
def feed (s : Server k N) (stamp : ℕ) (command : Command k N) : Server k N :=
  { s with
    mvccTstamp := stamp
    backlog := s.backlog ++ [.rreplay s.uuid stamp command] }

/-- The commands given to `alsoPropagate` are fed in order. -/
def propagate : ℕ → List (Command k N) → Server k N → Server k N
  | _, [], s => s
  | stamp, command :: rest, s => propagate (stamp + 1) rest (s.feed stamp command)

/-- A command from the stream of a master. -/
def replay (s : Server k N) (stamp : ℕ) (command : Command k N) : Server k N :=
  let after := call command s
  { propagate stamp after.alsoPropagate after with alsoPropagate := [] }

/-- A SET of a client of this server. -/
def clientSet (s : Server k N) (stamp : ℕ) (op : SetCommand k) : Server k N :=
  (call (.set op) s).feed stamp (.set op)

end Server

/-- The command that carries an operation over the given hops. -/
def Command.ofHops {k N : ℕ} (hops : List (Fin N × ℕ)) (op : SetCommand k) : Command k N :=
  hops.foldr (fun hop command => .rreplay hop.1 hop.2 command) (.set op)

def Command.ofMessage {k N : ℕ} (m : Message (Fin N) (SetCommand k)) : Command k N :=
  .ofHops m.hops m.op

variable {k N : ℕ}

/-- What executing a nest of RREPLAYs does to a server. -/
structure Called (s s' : Server k N) (hops : List (Fin N × ℕ)) (op : SetCommand k) : Prop where
  remote : s'.remote = noteAll s.uuid s.remote hops
  db : s'.db = if passes s.uuid s.remote hops then Function.update s.db op.key (some op.value)
    else s.db
  applied : s'.applied = if passes s.uuid s.remote hops then s.applied ++ [op] else s.applied
  executed : s.commandsExecuted < s'.commandsExecuted
  cnesting : s'.nest.cnesting = s.nest.cnesting
  fCancelled : s'.nest.fCancelled = (!passes s.uuid s.remote hops ||
    (s.nest.fCancelled && !(s.nest.cnesting = 0 && !hops.isEmpty)))
  alsoPropagate : s'.alsoPropagate =
    if passes s.uuid s.remote hops && s.nest.cnesting = 0 && !hops.isEmpty &&
      !s.multimasterNoForward then s.alsoPropagate ++ [.ofHops hops op] else s.alsoPropagate
  uuid : s'.uuid = s.uuid
  multimasterNoForward : s'.multimasterNoForward = s.multimasterNoForward
  mvccTstamp : s'.mvccTstamp = s.mvccTstamp
  backlog : s'.backlog = s.backlog

theorem called_set (s : Server k N) (op : SetCommand k) :
    Called s (Server.call (.set op) s) [] op := by
  constructor <;> simp [Server.call, passes, noteAll]

/-- A level that is refused leaves everything but the cancellation alone. -/
theorem called_refused {s s' : Server k N} {hop : Fin N × ℕ} {rest : List (Fin N × ℕ)}
    {op : SetCommand k} (stale : ¬ fresh s.uuid s.remote hop = true)
    (result : s' = { s with
      nest := ⟨s.nest.cnesting, true⟩
      commandsExecuted := s.commandsExecuted + 1 }) : Called s s' (hop :: rest) op := by
  have dropped : passes s.uuid s.remote (hop :: rest) = false := by
    simp [passes, stale]
  subst result
  constructor <;> simp [dropped, noteAll, stale]

/-- A level that is let through, around one that has been executed. -/
theorem called_accepted {s inner : Server k N} {uuid : Fin N} {mvcc : ℕ}
    {rest : List (Fin N × ℕ)} {op : SetCommand k}
    (freshHop : fresh s.uuid s.remote (uuid, mvcc) = true)
    (called : Called { s with
      nest := ⟨s.nest.cnesting + 1, if s.nest.cnesting = 0 then false else s.nest.fCancelled⟩ }
      inner rest op) :
    Called s { s.replayed inner uuid mvcc (.ofHops rest op) with
      commandsExecuted := inner.commandsExecuted + 1 } ((uuid, mvcc) :: rest) op := by
  have all : passes s.uuid s.remote ((uuid, mvcc) :: rest) = passes s.uuid s.remote rest := by
    simp [passes, freshHop]
  have counted : inner.commandsExecuted ≠ s.commandsExecuted := called.executed.ne'
  have cancelled := called.fCancelled
  constructor
  · simp only [Server.replayed, counted, ne_eq, not_false_eq_true, true_and, noteAll, freshHop,
      if_true, note, called.remote]
  · rw [all]
    exact called.db
  · rw [all]
    exact called.applied
  · exact called.executed.trans (Nat.lt_succ_self _)
  · simp only [Server.replayed, ReplicaNestState.pop, called.cnesting, Nat.add_sub_cancel]
  · rw [all]
    simp only [Server.replayed, ReplicaNestState.pop, cancelled]
    by_cases top : s.nest.cnesting = 0 <;> simp [top]
  · rw [all]
    simp only [Server.replayed, ReplicaNestState.fFirst, cancelled, called.cnesting,
      called.alsoPropagate, called.multimasterNoForward]
    by_cases top : s.nest.cnesting = 0
    · simp [top, Command.ofHops]
    · simp [top]
  · exact called.uuid
  · exact called.multimasterNoForward
  · exact called.mvccTstamp
  · exact called.backlog

/-- Unless it is nested too deep, an RREPLAY is executed when all its levels are fresh,
and its levels are noted up to the first that is not. -/
theorem call_called (op : SetCommand k) (hops : List (Fin N × ℕ)) :
    ∀ s : Server k N, s.nest.cnesting + hops.length ≤ replayMaxNesting →
      (∀ hop ∈ hops, 0 < hop.2) → Called s (Server.call (.ofHops hops op) s) hops op := by
  induction hops with
  | nil =>
      intro s _ _
      exact called_set s op
  | cons hop rest ih =>
      intro s depth positive
      obtain ⟨uuid, mvcc⟩ := hop
      rw [List.length_cons] at depth
      have stamp : 0 < mvcc := positive (uuid, mvcc) List.mem_cons_self
      have room : ¬ s.nest.cnesting = replayMaxNesting := by omega
      change Called s (Server.call (.rreplay uuid mvcc (.ofHops rest op)) s) _ op
      unfold Server.call Server.replicaReplayCommand
      by_cases own : uuid = s.uuid
      · rw [if_pos own]
        exact called_refused (by simp [fresh, own]) rfl
      · rw [if_neg own]
        simp only [ReplicaNestState.fPush, if_neg room]
        by_cases old : mvcc ≠ 0 ∧ mvcc ≤ s.remote uuid
        · rw [if_pos old]
          refine called_refused (by simp [fresh, old.2]) ?_
          simp [ReplicaNestState.cancel, ReplicaNestState.pop]
        · rw [if_neg old]
          have freshHop : fresh s.uuid s.remote (uuid, mvcc) = true := by
            simp only [fresh, decide_eq_true_eq]
            exact ⟨own, by omega⟩
          apply called_accepted freshHop
          apply ih
          · change s.nest.cnesting + 1 + rest.length ≤ replayMaxNesting
            omega
          · intro hop member
            exact positive hop (List.mem_cons_of_mem _ member)

/-- Between two commands, with forwarding on. -/
structure Server.Idle (s : Server k N) : Prop where
  cnesting : s.nest.cnesting = 0
  alsoPropagate : s.alsoPropagate = []
  forwards : s.multimasterNoForward = false

/-- What a command from the stream of another server does between two commands. -/
structure Replayed (s s' : Server k N) (stamp : ℕ) (m : Message (Fin N) (SetCommand k)) :
    Prop where
  idle : s'.Idle
  uuid : s'.uuid = s.uuid
  remote : s'.remote = noteAll s.uuid s.remote m.hops
  accepted : passes s.uuid s.remote m.hops = true →
    s'.db = Function.update s.db m.op.key (some m.op.value) ∧ s'.applied = s.applied ++ [m.op] ∧
      s'.mvccTstamp = stamp ∧ s'.backlog = s.backlog ++ [.ofMessage (m.relay s.uuid stamp)]
  dropped : ¬ passes s.uuid s.remote m.hops = true →
    s'.db = s.db ∧ s'.applied = s.applied ∧ s'.mvccTstamp = s.mvccTstamp ∧ s'.backlog = s.backlog

theorem Server.Idle.replay {s : Server k N} (idle : s.Idle) (stamp : ℕ)
    (m : Message (Fin N) (SetCommand k)) (depth : m.hops.length ≤ replayMaxNesting)
    (positive : ∀ hop ∈ m.hops, 0 < hop.2) :
    Replayed s (s.replay stamp (.ofMessage m)) stamp m := by
  have called := call_called m.op m.hops s (by rw [idle.cnesting]; omega) positive
  have nonempty : m.hops.isEmpty = false := by
    simp [Message.hops]
  have queue := called.alsoPropagate
  simp only [idle.cnesting, idle.alsoPropagate, idle.forwards, nonempty, decide_true,
    Bool.and_true, Bool.not_false, List.nil_append] at queue
  have cnesting := called.cnesting.trans idle.cnesting
  have forwards := called.multimasterNoForward.trans idle.forwards
  change Replayed s { Server.propagate stamp (Server.call (.ofHops m.hops m.op) s).alsoPropagate
    (Server.call (.ofHops m.hops m.op) s) with alsoPropagate := [] } stamp m
  by_cases accepted : passes s.uuid s.remote m.hops = true
  · rw [if_pos accepted] at queue
    rw [queue]
    refine ⟨⟨cnesting, rfl, forwards⟩, called.uuid, called.remote, fun _ => ?_,
      fun dropped => absurd accepted dropped⟩
    have db := called.db
    have applied := called.applied
    rw [if_pos accepted] at db applied
    refine ⟨db, applied, rfl, ?_⟩
    change (Server.call (.ofHops m.hops m.op) s).backlog ++ [.rreplay _ stamp _] = _
    rw [called.backlog, called.uuid]
    rfl
  · rw [if_neg accepted] at queue
    rw [queue]
    refine ⟨⟨cnesting, rfl, forwards⟩, called.uuid, called.remote,
      fun all => absurd all accepted, fun _ => ?_⟩
    have db := called.db
    have applied := called.applied
    rw [if_neg accepted] at db applied
    exact ⟨db, applied, called.mvccTstamp, called.backlog⟩

end DistributedColoring

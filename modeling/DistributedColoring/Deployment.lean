import DistributedColoring.Client
import DistributedColoring.GuardedRun
import DistributedColoring.ReplicatedLog

set_option autoImplicit false

/- Clients of sync/color.c against one or several servers. A server executes one
command at a time; a SET takes effect on the client's own server at once and is
replayed on every other server once, in the order of its origin. GET and SMEMBERS
are answered from the local copy. -/
namespace DistributedColoring

open ReplicatedLog

/-- Order in which the two GETs before a test of the spin loop may be sent: the
function tells whether a GET may come first, before the loop and inside it. -/
abbrev ReadOrder := Bool → LockRead → Bool

/-- sync/color.c reads the flag first before the loop and the turn first inside it. -/
def ReadOrder.sync : ReadOrder := fun inLoop read =>
  decide (read = if inLoop then .turnVar else .otherFlag)

/-- `k` clients on `N` servers that hold the same graph. -/
structure Deployment (k N : ℕ) where
  /-- `node_<v>_neighbours` -/
  nbrs : ℕ → Finset ℕ
  /-- What `fetch_keys` returns, as node ids. -/
  keys : List ℕ
  firstNode : Fin k → ℤ
  lastNode : Fin k → ℤ
  server : Fin k → Fin N
  /-- `num_of_replicas` -/
  required : ℕ
  /-- Replicas outside the mesh that may acknowledge a WAIT. -/
  plain : ℕ
  order : ReadOrder

structure State (k N : ℕ) where
  loc : Fin k → Local
  net : Net (Fin N) Key ℤ
  /-- Length of the log of its server just after the latest SET of a client. -/
  mark : Fin k → ℕ
  /-- History: nodes in the order in which their first colour SET took effect. -/
  history : List ℕ

/-- What a client does next, with the choices the servers leave open. -/
inductive Move
  | smembers (reply : List ℕ)
  | get
  | lockGet (read : LockRead)
  | set
  | wait (acks : ℕ)
  deriving DecidableEq

inductive Action (k N : ℕ)
  | client (c : Fin k) (move : Move)
  | deliver (receiver origin : Fin N)
  deriving DecidableEq

namespace Deployment

variable {k N : ℕ} (D : Deployment k N)

def client (c : Fin k) : Client :=
  ⟨D.firstNode c, D.lastNode c, D.keys, D.required⟩

/-- Before the first command, over servers that hold `store`. -/
def start (store : Key → Option ℤ) : State k N :=
  ⟨fun c => (D.client c).start, Net.start fun _ => store, fun _ => 0, []⟩

/-- What `add_graph` leaves on an empty server besides the neighbour sets. -/
def loaded : Key → Option ℤ
  | .color v => if v ∈ D.keys then some 0 else none
  | _ => none

end Deployment

/-- Two clients, each with one end of a single edge. -/
def oneEdge {N : ℕ} (server : Fin 2 → Fin N) (required : ℕ) : Deployment 2 N where
  nbrs v := if v = 0 then {1} else if v = 1 then {0} else ∅
  keys := [0, 1]
  firstNode c := c.val
  lastNode c := c.val
  server := server
  required := required
  plain := 0
  order := .sync

namespace State

variable {k N : ℕ} (s : State k N)

def put (c : Fin k) (l : Local) : State k N :=
  { s with loc := Function.update s.loc c l }

/-- The reply to GET on one server. -/
def get (server : Fin N) (key : Key) : Reply ℤ :=
  .stored (s.net.store server key)

/-- A SET of client `c`; only the first SET of a colour enters the history. -/
def send (c : Fin k) (server : Fin N) (w : Write) (again : Bool) : State k N where
  loc := s.loc
  net := s.net.write server (w.command (s.loc c).node).1 (w.command (s.loc c).node).2
  mark := Function.update s.mark c ((s.net.log server).length + 1)
  history :=
    match w, again with
    | .color _, false => s.history ++ [(s.loc c).node]
    | _, _ => s.history

/-- How many other servers have replayed every earlier SET of client `c`. -/
def caughtUp (c : Fin k) (server : Fin N) : ℕ :=
  ((List.finRange N).filter fun t => t ≠ server ∧ s.mark c ≤ s.net.seen t server).length

end State

namespace Deployment

variable {k N : ℕ} (D : Deployment k N)

/-- SMEMBERS returns the elements of the set once each, in any order. -/
def IsMembers (v : ℕ) (reply : List ℕ) : Prop :=
  reply.Nodup ∧ reply.toFinset = D.nbrs v

instance (v : ℕ) (reply : List ℕ) : Decidable (D.IsMembers v reply) :=
  inferInstanceAs (Decidable (_ ∧ _))

/-- The answer to the next command of client `c`, with GET answered by `get` and at
most `most` replicas counted by WAIT: its next local state, and what it has SET. -/
def clientMove (c : Fin k) (l : Local) (get : Key → Reply ℤ) (most : ℕ) (move : Move) :
    Option (Local × Option (Write × Bool)) :=
  match l.pc, move with
  | .getAllNeighbours, .smembers reply =>
      if D.IsMembers l.node reply then some (Client.onNeighbours l (.value reply), none)
      else none
  | .checkBoundaryNode, .smembers reply =>
      if D.IsMembers l.node reply then some ((D.client c).onBoundary l (.value reply), none)
      else none
  | .getStatus nbr, .get => some (Client.onStatus l nbr (get (.status nbr)), none)
  | .getNodeColor nbr, .get => some ((D.client c).onColor l nbr (get (.color nbr)), none)
  | .set w again, .set => some ((D.client c).onSet l w (.value ()), some (w, again))
  | .wait w, .wait acks =>
      if acks ≤ most then some ((D.client c).onWait l w (.value acks), none) else none
  | .spin lock inLoop none turnVar, .lockGet .otherFlag =>
      if turnVar.isSome || D.order inLoop .otherFlag then
        some (Client.onLockReads l lock inLoop (some (get lock.lockKey2)) turnVar, none)
      else none
  | .spin lock inLoop otherFlag none, .lockGet .turnVar =>
      if otherFlag.isSome || D.order inLoop .turnVar then
        some (Client.onLockReads l lock inLoop otherFlag (some (get lock.turnKey)), none)
      else none
  | _, _ => none

def clientStep (s : State k N) (c : Fin k) (move : Move) : Option (State k N) :=
  let server := D.server c
  match D.clientMove c (s.loc c) (s.get server) (D.plain + s.caughtUp c server) move with
  | some (l, none) => some (s.put c l)
  | some (l, some (w, again)) => some ((s.send c server w again).put c l)
  | none => none

def step (s : State k N) : Action k N → Option (State k N)
  | .client c move => D.clientStep s c move
  | .deliver receiver origin =>
      (s.net.deliver receiver origin).map fun net => { s with net }

end Deployment

end DistributedColoring

import DistributedColoring.Deployment
import DistributedColoring.Replay

set_option autoImplicit false

/- Clients of sync/color.c against active replicas in a full mesh. Links stay up, and
each server reads the stream of every other one in order. -/
namespace DistributedColoring

structure MeshState (k N : ℕ) where
  loc : Fin k → Local
  servers : Fin N → Server k N
  /-- `read t s` counts the commands of the stream of `s` that `t` has executed. -/
  read : Fin N → Fin N → ℕ
  /-- Length of the stream of its server just after the latest SET of a client. -/
  mark : Fin k → ℕ
  /-- History: nodes in the order in which their first colour SET took effect. -/
  history : List ℕ
  /-- History: the SETs each client has sent, in order. -/
  issued : Fin k → List (SetCommand k)

/-- A client's move or the delivery of one command, with the next stamp of the server
that executes it. -/
inductive MeshAction (k N : ℕ)
  | client (c : Fin k) (move : Move) (stamp : ℕ)
  | deliver (receiver source : Fin N) (stamp : ℕ)

namespace MeshState

variable {k N : ℕ} (m : MeshState k N)

def put (c : Fin k) (l : Local) : MeshState k N :=
  { m with loc := Function.update m.loc c l }

def get (server : Fin N) (key : Key) : Reply ℤ :=
  .stored ((m.servers server).db key)

/-- How many other servers have acknowledged the stream up to the client's latest SET. -/
def caughtUp (c : Fin k) (server : Fin N) : ℕ :=
  ((List.finRange N).filter fun t => t ≠ server ∧ m.mark c ≤ m.read t server).length

def send (c : Fin k) (server : Fin N) (w : Write) (again : Bool) (stamp : ℕ) : MeshState k N where
  loc := m.loc
  servers := Function.update m.servers server ((m.servers server).clientSet stamp
    ⟨c, (w.command (m.loc c).node).1, (w.command (m.loc c).node).2⟩)
  read := m.read
  mark := Function.update m.mark c ((m.servers server).backlog.length + 1)
  history :=
    match w, again with
    | .color _, false => m.history ++ [(m.loc c).node]
    | _, _ => m.history
  issued := Function.update m.issued c (m.issued c ++
    [⟨c, (w.command (m.loc c).node).1, (w.command (m.loc c).node).2⟩])

end MeshState

namespace Deployment

variable {k N : ℕ} (D : Deployment k N)

/-- Before the first command, with forwarding on everywhere. -/
def meshStart (store : Key → Option ℤ) : MeshState k N where
  loc c := (D.client c).start
  servers t := ⟨t, false, store, fun _ => 0, ⟨0, false⟩, 0, [], 0, [], []⟩
  read _ _ := 0
  mark _ := 0
  history := []
  issued _ := []

def meshStep (m : MeshState k N) : MeshAction k N → Option (MeshState k N)
  | .client c move stamp =>
      let server := D.server c
      match D.clientMove c (m.loc c) (m.get server) (D.plain + m.caughtUp c server) move with
      | some (l, none) => some (m.put c l)
      | some (l, some (w, again)) =>
          if (m.servers server).mvccTstamp < stamp then
            some ((m.send c server w again stamp).put c l)
          else none
      | none => none
  | .deliver t s stamp =>
      if t ≠ s ∧ (m.servers t).mvccTstamp < stamp then
        match (m.servers s).backlog[m.read t s]? with
        | some command => some
            { m with
              servers := Function.update m.servers t ((m.servers t).replay stamp command)
              read := Function.update m.read t
                (Function.update (m.read t) s (m.read t s + 1)) }
        | none => none
      else none

end Deployment

end DistributedColoring

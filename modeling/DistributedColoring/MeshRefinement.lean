import DistributedColoring.Mesh
import DistributedColoring.Steps

set_option autoImplicit false

/- The mesh of active replicas implements the replicated log: each step of the mesh is
one step of the deployment over logs, or none. What a server drops it has already. -/
namespace DistributedColoring

open GuardedRun
open ReplicatedLog
open StampedFlood (Message Flood passes noteAll)

variable {k N : ℕ} {D : Deployment k N}

/-- The stream and the notes of a server are those of a flood. -/
structure Mirrors (S : Server k N) (n : Flood (Fin N) (SetCommand k)) (t : Fin N) : Prop where
  idle : S.Idle
  uuid : S.uuid = t
  backlog : S.backlog = (n.out t).map Command.ofMessage
  remote : S.remote = n.remote t
  clock : S.mvccTstamp = n.clock t
  applied : S.applied = (n.out t).map Message.op

theorem Mirrors.congr {S : Server k N} {n n' : Flood (Fin N) (SetCommand k)} {t : Fin N}
    (mirrors : Mirrors S n t) (out : n'.out t = n.out t) (remote : n'.remote t = n.remote t)
    (clock : n'.clock t = n.clock t) : Mirrors S n' t :=
  ⟨mirrors.idle, mirrors.uuid, out ▸ mirrors.backlog, remote ▸ mirrors.remote,
    clock ▸ mirrors.clock, out ▸ mirrors.applied⟩

theorem Mirrors.clientSet {S : Server k N} {n : Flood (Fin N) (SetCommand k)} {t : Fin N}
    (mirrors : Mirrors S n t) (stamp : ℕ) (op : SetCommand k) :
    Mirrors (S.clientSet stamp op) (n.emit t stamp op) t := by
  refine ⟨⟨mirrors.idle.cnesting, mirrors.idle.alsoPropagate, mirrors.idle.forwards⟩,
    mirrors.uuid, ?_, mirrors.remote, ?_, ?_⟩
  · change S.backlog ++ [.rreplay S.uuid stamp (.set op)] = _
    rw [mirrors.backlog, mirrors.uuid]
    simp [Flood.emit, Flood.append, Command.ofMessage, Command.ofHops, Message.hops]
  · simp [Server.clientSet, Server.feed, Flood.emit, Flood.append]
  · change S.applied ++ [op] = _
    rw [mirrors.applied]
    simp [Flood.emit, Flood.append]

theorem Mirrors.replay {S : Server k N} {n : Flood (Fin N) (SetCommand k)} {t s : Fin N}
    (mirrors : Mirrors S n t) (stamp : ℕ) {x : Message (Fin N) (SetCommand k)}
    (depth : x.hops.length ≤ replayMaxNesting) (positive : ∀ hop ∈ x.hops, 0 < hop.2) :
    Mirrors (S.replay stamp (.ofMessage x)) (n.receive t s stamp x) t := by
  obtain ⟨idle, uuid, remote, accepted, dropped⟩ := mirrors.idle.replay stamp x depth positive
  rw [mirrors.uuid, mirrors.remote] at remote accepted dropped
  unfold Flood.receive
  split
  · rename_i all
    obtain ⟨_, applied, clock, backlog⟩ := accepted all
    refine ⟨idle, uuid.trans mirrors.uuid, ?_, ?_, ?_, ?_⟩
    · rw [backlog, mirrors.backlog]
      simp [Flood.append, Flood.skip]
    · rw [remote]
      simp [Flood.append, Flood.skip]
    · rw [clock]
      simp [Flood.append]
    · rw [applied, mirrors.applied]
      simp [Flood.append, Flood.skip, Message.relay]
  · rename_i refused
    obtain ⟨_, applied, clock, backlog⟩ := dropped refused
    refine ⟨idle, uuid.trans mirrors.uuid, backlog.trans mirrors.backlog, ?_,
      clock.trans mirrors.clock, applied.trans mirrors.applied⟩
    rw [remote]
    simp [Flood.skip]

/-- The servers together are a flood. -/
structure Floods (m : MeshState k N) (n : Flood (Fin N) (SetCommand k)) : Prop where
  delivered : n.Delivered
  inOrder : n.InOrder
  read : m.read = n.read
  mirrors : ∀ t, Mirrors (m.servers t) n t

/-- The log entry of an operation. -/
def SetCommand.entry (op : SetCommand k) : Key × ℤ := (op.key, op.value)

/-- A state of the mesh and the state of the deployment over logs that it implements. -/
structure Refines (D : Deployment k N) (m : MeshState k N) (n : Flood (Fin N) (SetCommand k))
    (s : State k N) : Prop where
  floods : Floods m n
  home : ∀ t, ∀ x ∈ n.out t, D.server x.op.client = x.origin.1
  loc : s.loc = m.loc
  history : s.history = m.history
  store : ∀ t, s.net.store t = (m.servers t).db
  log : ∀ o, s.net.log o = (n.arrived o o).map fun tag => tag.2.entry
  seen : ∀ t o, s.net.seen t o = (n.arrived t o).length
  marked : ∀ c, m.mark c ≤ (n.out (D.server c)).length
  mark : ∀ c, s.mark c =
    (((n.out (D.server c)).take (m.mark c)).filter fun x => x.origin.1 = D.server c).length
  issued : ∀ c, m.issued c =
    ((n.arrived (D.server c) (D.server c)).map Prod.snd).filter fun op => op.client = c

theorem start_refines (store : Key → Option ℤ) :
    Refines D (D.meshStart store) Flood.start (D.start store) where
  floods := ⟨Flood.start_delivered, Flood.start_inOrder, rfl,
    fun _ => ⟨⟨rfl, rfl, rfl⟩, rfl, rfl, rfl, rfl, rfl⟩⟩
  home := fun _ _ member => absurd member List.not_mem_nil
  loc := rfl
  history := rfl
  store := fun _ => rfl
  log := fun _ => rfl
  seen := fun _ _ => rfl
  marked := fun _ => Nat.le_refl _
  mark := fun _ => rfl
  issued := fun _ => rfl

/-- More replicas to count can only make a WAIT return more. -/
theorem clientMove_mono {c : Fin k} {l l' : Local} {get : Key → Reply ℤ} {most more : ℕ}
    (bound : most ≤ more) {move : Move} {sent : Option (Write × Bool)}
    (taken : D.clientMove c l get most move = some (l', sent)) :
    D.clientMove c l get more move = some (l', sent) := by
  unfold Deployment.clientMove at *
  split at taken
  case h_6 w acks _ =>
      split at taken
      · rename_i few
        rw [if_pos (few.trans bound)]
        exact taken
      · cases taken
  all_goals exact taken

/-- A server that has read a stream up to a mark has its own operations up to there. -/
theorem Refines.mark_le_seen {m : MeshState k N} {n : Flood (Fin N) (SetCommand k)}
    {s : State k N} (refines : Refines D m n s) {c : Fin k} {t : Fin N}
    (reached : m.mark c ≤ m.read t (D.server c)) : s.mark c ≤ s.net.seen t (D.server c) := by
  have delivered := refines.floods.delivered
  rw [refines.mark c, refines.seen]
  let o := D.server c
  let own := ((n.out o).take (m.mark c)).filter fun x => x.origin.1 = o
  have inside : ∀ tag ∈ own.map Message.tag, tag ∈ n.arrived t o := by
    intro tag member
    obtain ⟨x, filtered, same⟩ := List.mem_map.mp member
    obtain ⟨taken, origin⟩ := List.mem_filter.mp filtered
    subst same
    refine Flood.mem_arrived.mpr ⟨?_, of_decide_eq_true origin⟩
    apply delivered.read t o x
    rw [← refines.floods.read]
    exact (List.take_subset_take_left _ reached) taken
  have sorted := delivered.streams.arrived_self_sorted o
  have nodup : (own.map Message.tag).Nodup := by
    have part : (own.map Message.tag).Sublist (n.arrived o o) :=
      ((List.take_sublist _ _).filter _).map _
    exact (sorted.sublist part).imp fun less same => by
      rw [same] at less
      exact absurd less (lt_irrefl _)
  have count := (nodup.subperm inside).length_le
  rwa [List.length_map] at count

theorem Refines.caughtUp_le {m : MeshState k N} {n : Flood (Fin N) (SetCommand k)}
    {s : State k N} (refines : Refines D m n s) (c : Fin k) :
    m.caughtUp c (D.server c) ≤ s.caughtUp c (D.server c) := by
  apply List.Sublist.length_le
  apply List.monotone_filter_right
  intro t counted
  obtain ⟨other, reached⟩ := of_decide_eq_true counted
  exact decide_eq_true ⟨other, refines.mark_le_seen reached⟩

theorem Refines.get_eq {m : MeshState k N} {n : Flood (Fin N) (SetCommand k)} {s : State k N}
    (refines : Refines D m n s) (t : Fin N) : s.get t = m.get t := by
  funext key
  unfold State.get MeshState.get
  rw [refines.store t]

theorem Refines.clientMove {m : MeshState k N} {n : Flood (Fin N) (SetCommand k)} {s : State k N}
    (refines : Refines D m n s) {c : Fin k} {move : Move} {l : Local}
    {sent : Option (Write × Bool)}
    (moved : D.clientMove c (m.loc c) (m.get (D.server c))
      (D.plain + m.caughtUp c (D.server c)) move = some (l, sent)) :
    D.clientMove c (s.loc c) (s.get (D.server c)) (D.plain + s.caughtUp c (D.server c)) move =
      some (l, sent) := by
  rw [refines.loc, refines.get_eq]
  exact clientMove_mono (Nat.add_le_add_left (refines.caughtUp_le c) _) moved

section Steps

variable {m : MeshState k N} {n : Flood (Fin N) (SetCommand k)} {s : State k N}

/-- The operation a client sends. -/
def sentOp (m : MeshState k N) (c : Fin k) (w : Write) : SetCommand k :=
  ⟨c, (w.command (m.loc c).node).1, (w.command (m.loc c).node).2⟩

theorem Floods.send (floods : Floods m n) (server : Fin N) (c : Fin k) (w : Write)
    (again : Bool) {stamp : ℕ} (later : (m.servers server).mvccTstamp < stamp) :
    Floods (m.send c server w again stamp) (n.emit server stamp (sentOp m c w)) := by
  have clock : n.clock server < stamp := by
    rw [← (floods.mirrors server).clock]
    exact later
  refine ⟨floods.delivered.emit clock _, floods.inOrder.emit _ _ _, floods.read, ?_⟩
  intro t
  by_cases here : t = server
  · subst here
    simp only [MeshState.send, Function.update_self]
    exact (floods.mirrors t).clientSet stamp (sentOp m c w)
  · simp only [MeshState.send, ne_eq, here, not_false_eq_true, Function.update_of_ne]
    exact (floods.mirrors t).congr (by simp [Flood.emit, Flood.append, here]) rfl
      (by simp [Flood.emit, Flood.append, here])

/-- The message next in a stream, and that it is executed without overflow. -/
theorem Floods.next (floods : Floods m n) (size : N < replayMaxNesting) {t source : Fin N}
    {command : Command k N}
    (found : (m.servers source).backlog[m.read t source]? = some command) :
    ∃ x, (n.out source)[n.read t source]? = some x ∧ command = .ofMessage x ∧
      x.hops.length ≤ replayMaxNesting ∧ ∀ hop ∈ x.hops, 0 < hop.2 := by
  rw [(floods.mirrors source).backlog, floods.read, List.getElem?_map] at found
  obtain ⟨x, next, same⟩ := Option.map_eq_some_iff.mp found
  have member := List.mem_of_getElem? next
  have depth := floods.delivered.streams.hops_length_le member
  rw [Fintype.card_fin] at depth
  exact ⟨x, next, same.symm, by omega, floods.delivered.streams.positive source x member⟩

theorem Floods.deliver (floods : Floods m n) {t source : Fin N} (apart : t ≠ source) {stamp : ℕ}
    (later : (m.servers t).mvccTstamp < stamp) {x : Message (Fin N) (SetCommand k)}
    (next : (n.out source)[n.read t source]? = some x)
    (depth : x.hops.length ≤ replayMaxNesting) (positive : ∀ hop ∈ x.hops, 0 < hop.2) :
    Floods { m with
      servers := Function.update m.servers t ((m.servers t).replay stamp (.ofMessage x))
      read := Function.update m.read t (Function.update (m.read t) source
        (m.read t source + 1)) } (n.receive t source stamp x) := by
  have clock : n.clock t < stamp := by
    rw [← (floods.mirrors t).clock]
    exact later
  refine ⟨floods.delivered.receive apart clock next,
    floods.delivered.receive_inOrder floods.inOrder stamp next, ?_, ?_⟩
  · rw [floods.read]
    unfold Flood.receive
    split <;> rfl
  · intro r
    by_cases here : r = t
    · subst here
      simp only [Function.update_self]
      exact (floods.mirrors r).replay stamp depth positive
    · simp only [ne_eq, here, not_false_eq_true, Function.update_of_ne]
      unfold Flood.receive
      split
      · exact (floods.mirrors r).congr (by simp [Flood.append, Flood.skip, here])
          (by simp [Flood.append, Flood.skip, here]) (by simp [Flood.append, Flood.skip, here])
      · exact (floods.mirrors r).congr rfl (by simp [Flood.skip, here]) rfl

theorem take_append_out (n : Flood (Fin N) (SetCommand k)) (t : Fin N) (stamp : ℕ)
    (x : Message (Fin N) (SetCommand k)) {o : Fin N} {r : ℕ} (bound : r ≤ (n.out o).length) :
    ((n.append t stamp x).out o).take r = (n.out o).take r := by
  by_cases here : o = t
  · subst here
    simp only [Flood.append, Function.update_self]
    rw [List.take_append_of_le_length bound]
  · simp [Flood.append, here]

theorem length_out_le (n : Flood (Fin N) (SetCommand k)) (t : Fin N) (stamp : ℕ)
    (x : Message (Fin N) (SetCommand k)) (o : Fin N) :
    (n.out o).length ≤ ((n.append t stamp x).out o).length := by
  by_cases here : o = t
  · subst here
    simp [Flood.append]
  · simp [Flood.append, here]

theorem arrived_emit_own (n : Flood (Fin N) (SetCommand k)) (t : Fin N) (stamp : ℕ)
    (op : SetCommand k) :
    (n.emit t stamp op).arrived t t = n.arrived t t ++ [((t, stamp), op)] := by
  rw [Flood.arrived_emit, if_pos ⟨rfl, rfl⟩]

theorem arrived_emit_other (n : Flood (Fin N) (SetCommand k)) {t r o : Fin N} (stamp : ℕ)
    (op : SetCommand k) (apart : ¬ (r = t ∧ o = t)) :
    (n.emit t stamp op).arrived r o = n.arrived r o := by
  rw [Flood.arrived_emit, if_neg fun both => apart ⟨both.1, both.2.symm⟩, List.append_nil]

/-- The SET is the next entry of the log of its server, which has seen it. -/
theorem Refines.send_net (refines : Refines D m n s) (c : Fin k) (w : Write) (again : Bool)
    (stamp : ℕ) (l : Local) :
    (∀ o, ((s.send c (D.server c) w again).put c l).net.log o =
      ((n.emit (D.server c) stamp (sentOp m c w)).arrived o o).map fun tag => tag.2.entry) ∧
    ∀ t o, ((s.send c (D.server c) w again).put c l).net.seen t o =
      ((n.emit (D.server c) stamp (sentOp m c w)).arrived t o).length := by
  refine ⟨fun o => ?_, fun t o => ?_⟩
  · simp only [put_net, DistributedColoring.send_net, Net.write, refines.loc]
    by_cases here : o = D.server c
    · subst here
      rw [arrived_emit_own, Function.update_self, refines.log, List.map_append]
      rfl
    · rw [Function.update_of_ne here, arrived_emit_other n stamp _ fun both => here both.1]
      exact refines.log o
  · simp only [put_net, DistributedColoring.send_net, Net.write]
    by_cases here : t = D.server c
    · subst here
      rw [Function.update_self]
      by_cases origin : o = D.server c
      · subst origin
        rw [arrived_emit_own, Function.update_self, refines.log]
        simp
      · rw [Function.update_of_ne origin,
          arrived_emit_other n stamp _ fun both => origin both.2]
        exact refines.seen _ _
    · rw [Function.update_of_ne here, arrived_emit_other n stamp _ fun both => here both.1]
      exact refines.seen t o

/-- The mark of the client is behind its SET, the other marks are where they were. -/
theorem Refines.send_mark (refines : Refines D m n s) (c : Fin k) (w : Write) (again : Bool)
    (stamp : ℕ) (l : Local) (d : Fin k) :
    ((m.send c (D.server c) w again stamp).put c l).mark d ≤
        ((n.emit (D.server c) stamp (sentOp m c w)).out (D.server d)).length ∧
      ((s.send c (D.server c) w again).put c l).mark d =
        ((((n.emit (D.server c) stamp (sentOp m c w)).out (D.server d)).take
          (((m.send c (D.server c) w again stamp).put c l).mark d)).filter
            fun x => x.origin.1 = D.server d).length := by
  by_cases client : d = c
  · subst client
    refine ⟨?_, ?_⟩
    · simp only [MeshState.put, MeshState.send, Function.update_self,
        (refines.floods.mirrors _).backlog, List.length_map]
      simp [Flood.emit, Flood.append]
    · simp only [put_mark, State.send, MeshState.put, MeshState.send, Function.update_self,
        (refines.floods.mirrors _).backlog, List.length_map, refines.log, Flood.emit,
        Flood.append, Flood.arrived]
      rw [List.take_of_length_le (by simp)]
      simp
  · have grown := length_out_le n (D.server c) stamp ⟨[], (D.server c, stamp), sentOp m c w⟩
      (D.server d)
    simp only [put_mark, State.send, MeshState.put, MeshState.send, ne_eq, client,
      not_false_eq_true, Function.update_of_ne]
    refine ⟨(refines.marked d).trans grown, ?_⟩
    unfold Flood.emit
    rw [take_append_out n (D.server c) stamp _ (refines.marked d)]
    exact refines.mark d

theorem Refines.send_issued (refines : Refines D m n s) (c : Fin k) (w : Write) (again : Bool)
    (stamp : ℕ) (l : Local) (d : Fin k) :
    ((m.send c (D.server c) w again stamp).put c l).issued d =
      (((n.emit (D.server c) stamp (sentOp m c w)).arrived (D.server d) (D.server d)).map
        Prod.snd).filter fun op => op.client = d := by
  by_cases client : d = c
  · subst client
    simp only [MeshState.put, MeshState.send, Function.update_self, arrived_emit_own,
      List.map_append, List.filter_append, refines.issued d]
    simp [sentOp]
  · simp only [MeshState.put, MeshState.send, ne_eq, client, not_false_eq_true,
      Function.update_of_ne]
    rw [refines.issued d]
    by_cases server : D.server d = D.server c
    · rw [server, arrived_emit_own, List.map_append, List.filter_append]
      simp [sentOp, Ne.symm client]
    · rw [arrived_emit_other n stamp _ fun both => server both.1]

/-- A SET of a client is a write of the replicated log. -/
theorem Refines.send (refines : Refines D m n s) (c : Fin k) (w : Write) (again : Bool)
    {stamp : ℕ} (later : (m.servers (D.server c)).mvccTstamp < stamp) (l : Local) :
    Refines D ((m.send c (D.server c) w again stamp).put c l)
      (n.emit (D.server c) stamp (sentOp m c w))
      ((s.send c (D.server c) w again).put c l) := by
  have floods := refines.floods.send (D.server c) c w again later
  obtain ⟨log, seen⟩ := refines.send_net c w again stamp l
  have mark := refines.send_mark c w again stamp l
  refine ⟨⟨floods.delivered, floods.inOrder, floods.read, floods.mirrors⟩, ?_, ?_, ?_, ?_, log,
    seen, fun d => (mark d).1, fun d => (mark d).2, refines.send_issued c w again stamp l⟩
  · intro t x member
    rcases (Flood.mem_append_out n (D.server c) t stamp _ x).mp member with old | ⟨_, new⟩
    · exact refines.home t x old
    · rw [new]
      rfl
  · simp only [State.put, MeshState.put, State.send, MeshState.send, refines.loc]
  · cases w <;> cases again <;>
      simp only [put_history, MeshState.put, State.send, MeshState.send, refines.loc,
        refines.history]
  · intro t
    simp only [put_net, DistributedColoring.send_net, MeshState.put, MeshState.send, Net.write,
      refines.loc]
    by_cases here : t = D.server c
    · subst here
      simp only [Function.update_self, refines.store]
      rfl
    · simp only [ne_eq, here, not_false_eq_true, Function.update_of_ne, refines.store]

/-- The mesh after a delivery, before it is known whether the message is dropped. -/
def afterDelivery (m : MeshState k N) (t source : Fin N) (stamp : ℕ)
    (x : Message (Fin N) (SetCommand k)) : MeshState k N :=
  { m with
    servers := Function.update m.servers t ((m.servers t).replay stamp (.ofMessage x))
    read := Function.update m.read t (Function.update (m.read t) source (m.read t source + 1)) }

/-- A dropped message changes nothing. -/
theorem Refines.drop (refines : Refines D m n s) {t source : Fin N} {stamp : ℕ}
    {x : Message (Fin N) (SetCommand k)}
    (floods : Floods (afterDelivery m t source stamp x) (n.receive t source stamp x))
    (replayed : Replayed (m.servers t) ((m.servers t).replay stamp (.ofMessage x)) stamp x)
    (refused : ¬ passes t (n.remote t) x.hops = true) :
    Refines D (afterDelivery m t source stamp x) (n.receive t source stamp x) s := by
  have dropped := replayed.dropped
  rw [(refines.floods.mirrors t).uuid, (refines.floods.mirrors t).remote] at dropped
  unfold Flood.receive at *
  rw [if_neg refused] at *
  refine ⟨floods, refines.home, refines.loc, refines.history, ?_, refines.log, refines.seen,
    refines.marked, refines.mark, refines.issued⟩
  intro r
  by_cases here : r = t
  · subst here
    simp only [afterDelivery, Function.update_self]
    rw [(dropped refused).1]
    exact refines.store r
  · simp only [afterDelivery, ne_eq, here, not_false_eq_true, Function.update_of_ne]
    exact refines.store r

/-- An accepted message is the next entry of the log of its origin. -/
theorem Refines.accept (refines : Refines D m n s) {t source : Fin N} {stamp : ℕ}
    {x : Message (Fin N) (SetCommand k)}
    (floods : Floods (afterDelivery m t source stamp x) (n.receive t source stamp x))
    (replayed : Replayed (m.servers t) ((m.servers t).replay stamp (.ofMessage x)) stamp x)
    (next : (n.out source)[n.read t source]? = some x)
    (all : passes t (n.remote t) x.hops = true) :
    ∃ s', D.step s (.deliver t x.origin.1) = some s' ∧
      Refines D (afterDelivery m t source stamp x) (n.receive t source stamp x) s' := by
  have accepted := replayed.accepted
  rw [(refines.floods.mirrors t).uuid, (refines.floods.mirrors t).remote] at accepted
  obtain ⟨db, _⟩ := accepted all
  have member := List.mem_of_getElem? next
  have arrived := fun r o => Flood.arrived_receive (s := source) stamp all r o
  have self := fun o => Flood.arrived_receive_self (s := source) stamp all o
  have entry : (s.net.log x.origin.1)[s.net.seen t x.origin.1]? = some x.op.entry := by
    obtain ⟨rest, split⟩ := refines.floods.delivered.arrived_relay refines.floods.inOrder next all
    rw [refines.log, refines.seen, ← split]
    simp [Message.tag]
  have outEq : (n.receive t source stamp x).out =
      ((n.skip t source x).append t stamp (x.relay t stamp)).out := by
    unfold Flood.receive
    rw [if_pos all]
  refine ⟨{ s with net := s.net.replay t x.origin.1 x.op.key x.op.value }, ?_, floods, ?_,
    refines.loc, refines.history, ?_, ?_, ?_, ?_, ?_, ?_⟩
  · simp only [Deployment.step, Net.deliver, entry]
    rfl
  · intro r y inStream
    rw [outEq] at inStream
    rcases (Flood.mem_append_out _ t r stamp _ y).mp inStream with old | ⟨_, new⟩
    · exact refines.home r y old
    · rw [new]
      exact refines.home source x member
  · intro r
    by_cases here : r = t
    · subst here
      simp only [afterDelivery, Net.replay, Function.update_self, db, refines.store]
    · simp only [afterDelivery, Net.replay, ne_eq, here, not_false_eq_true,
        Function.update_of_ne]
      exact refines.store r
  · intro o
    rw [self]
    exact refines.log o
  · intro r o
    rw [arrived]
    simp only [Net.replay]
    by_cases here : r = t
    · subst here
      rw [Function.update_self]
      by_cases origin : x.origin.1 = o
      · subst origin
        rw [if_pos ⟨rfl, rfl⟩, Function.update_self, refines.seen]
        simp
      · rw [if_neg fun both => origin both.2, Function.update_of_ne (Ne.symm origin),
          List.append_nil]
        exact refines.seen r o
    · rw [if_neg fun both => here both.1, Function.update_of_ne here, List.append_nil]
      exact refines.seen r o
  · intro c
    rw [outEq]
    exact (refines.marked c).trans (length_out_le (n.skip t source x) t stamp _ _)
  · intro c
    have kept := take_append_out (n.skip t source x) t stamp (x.relay t stamp) (refines.marked c)
    simp only [afterDelivery, outEq, kept]
    exact refines.mark c
  · intro c
    rw [self]
    exact refines.issued c

/-- Each step of the mesh is at most one step of the deployment over logs. -/
theorem Refines.step (refines : Refines D m n s) (size : N < replayMaxNesting)
    {a : MeshAction k N} {m' : MeshState k N} (taken : D.meshStep m a = some m') :
    ∃ n' s', Refines D m' n' s' ∧ Reaches D.step s s' := by
  cases a with
  | client c move stamp =>
      simp only [Deployment.meshStep] at taken
      split at taken
      · rename_i l moved
        cases taken
        have step : D.step s (.client c move) = some (s.put c l) := by
          simp only [Deployment.step, Deployment.clientStep, refines.clientMove moved]
        refine ⟨n, s.put c l, ?_, Run.refl.tail trivial step⟩
        refine ⟨⟨refines.floods.delivered, refines.floods.inOrder, refines.floods.read,
          refines.floods.mirrors⟩, refines.home, ?_, refines.history, refines.store, refines.log,
          refines.seen, refines.marked, refines.mark, refines.issued⟩
        simp only [State.put, MeshState.put, refines.loc]
      · rename_i l w again moved
        split at taken
        · rename_i later
          cases taken
          have step : D.step s (.client c move) =
              some ((s.send c (D.server c) w again).put c l) := by
            simp only [Deployment.step, Deployment.clientStep, refines.clientMove moved]
          exact ⟨_, _, refines.send c w again later l, Run.refl.tail trivial step⟩
        · cases taken
      · cases taken
  | deliver t source stamp =>
      simp only [Deployment.meshStep] at taken
      split at taken
      · rename_i guard
        obtain ⟨apart, later⟩ := guard
        split at taken
        · rename_i command found
          cases taken
          obtain ⟨x, next, same, depth, positive⟩ := refines.floods.next size found
          subst same
          have floods := refines.floods.deliver apart later next depth positive
          have replayed := (refines.floods.mirrors t).idle.replay stamp x depth positive
          by_cases all : passes t (n.remote t) x.hops = true
          · obtain ⟨s', step, refined⟩ := refines.accept floods replayed next all
            exact ⟨_, s', refined, Run.refl.tail trivial step⟩
          · exact ⟨_, s, refines.drop floods replayed all, Run.refl⟩
        · cases taken
      · cases taken

theorem Refines.run (refines : Refines D m n s) (size : N < replayMaxNesting)
    {m' : MeshState k N} (run : Reaches D.meshStep m m') :
    ∃ n' s', Refines D m' n' s' ∧ Reaches D.step s s' := by
  induction run with
  | refl => exact ⟨n, s, refines, .refl⟩
  | tail _ _ taken ih =>
      obtain ⟨n₁, s₁, refined, before⟩ := ih
      obtain ⟨n₂, s₂, refined', after⟩ := refined.step size taken
      exact ⟨n₂, s₂, refined', before.trans after⟩

end Steps

end DistributedColoring

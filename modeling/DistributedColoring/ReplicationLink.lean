import DistributedColoring.ClientInput
import DistributedColoring.ReplicationBacklog
import DistributedColoring.ReplicationStream

set_option autoImplicit false

/- A link from a master to a replica, from the calls that feed the stream to the commands
that the replica executes. The master keeps the stream in its backlog and sends the replica
its part of it; the connection hands over a first part of what was sent, in any pieces. -/
namespace KeyDB

open CText StreamParser GuardedRun

namespace Connection

variable {service : Service} {base : ℤ} {conn : Connection}

/-- What has been executed, told from the whole stream instead of what has arrived. -/
theorem executed_of_stream (run : Reaches (step service) (fresh base) conn)
    (master : service.peer.master = true) {stream : Text} (arrived : conn.received <+: stream) :
    conn.executed <+: (drain (wireParser service.peer) ParseState.start stream).out.map Prod.fst ∧
      ((drain (wireParser service.peer) ParseState.start stream).out.filter
          fun r => base + r.2 ≤ conn.reploff).map Prod.fst =
        conn.executed.take (covered service.outcomes conn.executed.length) := by
  obtain ⟨more, rfl⟩ := arrived
  obtain ⟨_, _, queue, tracks, _⟩ := inPlace_of_run run
  refine ⟨?_, tracks.filter_eq_take master more⟩
  rw [← tracks.executed]
  exact ((List.prefix_append _ (requests queue)).trans
    (tracks.leads.append more).prefix_drain).map Prod.fst

end Connection

namespace Feeder

variable {f : Feeder} {calls : List FeedCall} {peer : Peer}

/-- The requests in the stream are the commands written to it. -/
theorem CanFeed.drain_stream (fits : f.CanFeed calls) (master : peer.master = true)
    (known : peer.authRequired = false) :
    (drain (wireParser peer) ParseState.start (f.stream calls)).out.map Prod.fst =
      f.commands calls := by
  obtain ⟨out, same, leads⟩ := resps_leads master known fits.commands_sendable 0 []
  rw [List.append_nil, ← fits.stream_eq] at leads
  have whole := leads.drain_of_wait (by rw [wireParser_next, ParseState.next_nil])
  rw [← same]
  exact congrArg (fun result => result.out.map Prod.fst) whole

end Feeder

/-- The part of the stream that a replica has been sent, when it began where `before` ends. -/
theorem Master.Sound.sent_begins_stream {m : Master} (sound : m.Sound) {before stream : Text}
    (fed : m.fed <+: before ++ stream) {r : Replica} (member : r ∈ m.slaves)
    (opened : r.closeAsap = false) (since : r.since = before.length) : r.sent <+: stream := by
  have replica := sound.replicas r member opened
  have ordered := replica.since_le.trans (replica.curr_le.trans replica.end_le)
  rw [since] at ordered
  rw [replica.sent, ByteMemory.read, since]
  obtain ⟨more, whole⟩ := fed
  have behind := congrArg (List.drop before.length) whole
  rw [List.drop_append_of_le_length ordered, List.drop_left] at behind
  exact (List.take_prefix _ _).trans ⟨more, behind⟩

/-- A replica for which no command blocks, is postponed or opens a transaction. -/
def plainService : Service := ⟨⟨true, false, 100⟩, fun _ => .replied false, fun _ => 0, 1000⟩

/-- A SET that an active replica executes at time 5, on its way to another one. -/
def oneSet : Feeder × List FeedCall :=
  (⟨true, List.replicate 36 '0', -1, 0⟩, [⟨5, 0, ["SET".toList, "a".toList, "1".toList]⟩])

theorem oneSet_canFeed : oneSet.1.CanFeed oneSet.2 where
  uuid := by decide
  sendable call member := by
    rw [List.mem_singleton.mp member]
    exact ⟨by decide, by decide, by decide⟩
  short call member := by
    rw [List.mem_singleton.mp member]
    decide
  database call member := by
    rw [List.mem_singleton.mp member]
    decide
  stamp := by decide
  early call member := by
    rw [List.mem_singleton.mp member]
    decide

def oneSetText : Text :=
  ("*5\r\n$7\r\nRREPLAY\r\n$36\r\n000000000000000000000000000000000000\r\n$27\r\n" ++
    "*3\r\n$3\r\nSET\r\n$1\r\na\r\n$1\r\n1\r\n\r\n$1\r\n0\r\n$7\r\n5242880\r\n").toList

theorem oneSet_stream : oneSet.1.stream oneSet.2 = oneSetText := by
  rw [oneSet_canFeed.stream_eq]
  decide +kernel

end KeyDB

import DistributedColoring.GuardedRun
import DistributedColoring.QueryParsing

set_option autoImplicit false

/- A connection from the first byte it receives on. Bytes are read in any pieces, parsed
when the client is ready, and the commands in the queue are executed in turn. A command
may block its client, or be postponed by a pause: then bytes are read and left alone until
the client is unblocked. -/
namespace KeyDB

open CText StreamParser GuardedRun

/-- What the execution of a command does to the client it came from: whether `CLIENT_MULTI`
is on afterwards, and whether the client is to be closed. After QUIT, or if the client was
freed, `processCommand` returns `C_ERR`. -/
inductive Execution where
  | replied (multi : Bool)
  | closed (multi : Bool)
  | blocked
  | quit
deriving DecidableEq

/-- `commandProcessed` moves a master's offset, which it leaves alone inside a transaction
and for a client that is blocked. After `C_ERR` it is not called. -/
def Execution.applies : Execution → Bool
  | .replied multi => !multi
  | .closed multi => !multi
  | .blocked => false
  | .quit => false

def Execution.closes : Execution → Bool
  | .replied _ => false
  | .closed _ => true
  | .blocked => false
  | .quit => true

/-- A client with its connection: `reploff` is the offset a replica has applied of its
master's stream. A command that CLIENT PAUSE has postponed is `pending`, and `postponed`
counts how often. Nothing reads `received`, all the bytes read so far, and `executed`. -/
structure Connection where
  client : QueryClient
  blocked : Bool
  pending : Option ParsedCommand
  postponed : ℕ
  closing : Bool
  reploff : ℤ
  received : Text
  executed : List (List Text)

/-- What a server does with a connection depends on the peer, on how its commands come out,
on how often CLIENT PAUSE postpones them, and on `client_max_querybuf_len`. The commands of
the connection are counted from the first one. -/
structure Service where
  peer : Peer
  outcomes : ℕ → Execution
  pauses : ℕ → ℕ
  maxQuerybufLen : ℕ

namespace Connection

/-- A connection before its first byte. A master's stream is at `offset`. -/
def fresh (offset : ℤ) : Connection where
  client := ⟨[], 0, none, 0, none, [], offset, []⟩
  blocked := false
  pending := none
  postponed := 0
  closing := false
  reploff := offset
  received := []
  executed := []

/-- `FClientReady`. A client with a protocol error is closed after the reply. -/
def Ready (conn : Connection) : Prop :=
  conn.blocked = false ∧ conn.pending = none ∧ conn.closing = false ∧ conn.client.errors = []

instance (conn : Connection) : Decidable conn.Ready :=
  inferInstanceAs (Decidable (_ ∧ _ ∧ _ ∧ _))

def parse (peer : Peer) (conn : Connection) : Connection :=
  if conn.Ready then { conn with client := conn.client.parseClientCommandBuffer peer } else conn

/-- A command that is executed, with `commandProcessed`. One that is put into the queue of a
transaction counts as executed. -/
def execute (peer : Peer) (conn : Connection) (cmd : ParsedCommand) (outcome : Execution) :
    Connection :=
  { conn with
    blocked := decide (outcome = .blocked)
    pending := none
    postponed := 0
    closing := conn.closing || outcome.closes
    reploff := if peer.master && outcome.applies then cmd.reploff else conn.reploff
    executed := conn.executed ++ [cmd.argv] }

/-- During a pause `processCommand` blocks the client instead and keeps the command. -/
def processCommandAndResetClient (service : Service) (conn : Connection) (cmd : ParsedCommand) :
    Connection :=
  if conn.postponed < service.pauses conn.executed.length then
    { conn with blocked := true, pending := some cmd, postponed := conn.postponed + 1 }
  else conn.execute service.peer cmd (service.outcomes conn.executed.length)

/-- The loop of `processInputBuffer` over the queue. -/
def processQueue (service : Service) : List ParsedCommand → Connection → Connection
  | [], conn => { conn with client := { conn.client with vecqueuedcmd := [] } }
  | cmd :: queue, conn =>
      if cmd.argv.length = cmd.argcMax ∧ conn.Ready then
        if cmd.argv = [] then processQueue service queue conn
        else processQueue service queue (conn.processCommandAndResetClient service cmd)
      else { conn with client := { conn.client with vecqueuedcmd := cmd :: queue } }

/-- `processInputBuffer` without the parsing. -/
def process (service : Service) (conn : Connection) : Connection :=
  processQueue service conn.client.vecqueuedcmd conn

/-- The bytes of one `connRead`. -/
def receive (peer : Peer) (chunk : Text) (conn : Connection) : Connection :=
  { conn with
    client := { conn.client with
      querybuf := conn.client.querybuf ++ chunk
      readReploff :=
        if peer.master then conn.client.readReploff + chunk.length else conn.client.readReploff }
    received := conn.received ++ chunk }

/-- A query buffer that has become too large closes the client. -/
def readQueryFromClient (service : Service) (chunk : Text) (conn : Connection) : Connection :=
  let conn := conn.receive service.peer chunk
  if service.maxQuerybufLen < conn.client.querybuf.length then { conn with closing := true }
  else conn.parse service.peer

/-- `processPendingCommandsAndResetClient` -/
def processPending (service : Service) (conn : Connection) : Connection :=
  match conn.pending with
  | none => conn
  | some cmd => { conn with pending := none }.processCommandAndResetClient service cmd

/-- `unblockClient` and then `processUnblockedClients`. The query buffer is gone through
again if there is something in it. -/
def unblock (service : Service) (conn : Connection) : Connection :=
  let conn := { conn with blocked := false }.processPending service
  if conn.client.querybuf ≠ [] then (conn.parse service.peer).process service else conn

end Connection

/-- `process` comes right after `read` with one server thread, and later with several. -/
inductive InputEvent where
  | read (chunk : Text)
  | process
  | unblock
deriving DecidableEq

namespace Connection

def step (service : Service) (conn : Connection) : InputEvent → Option Connection
  | .read chunk =>
      if chunk ≠ [] ∧ conn.closing = false then some (conn.readQueryFromClient service chunk)
      else none
  | .process => some (conn.process service)
  | .unblock => if conn.blocked then some (conn.unblock service) else none

/-- How many of the first `n` commands a master's offset tells of: those up to the last one
that moved it. -/
def covered (outcomes : ℕ → Execution) : ℕ → ℕ
  | 0 => 0
  | n + 1 => if (outcomes n).applies then n + 1 else covered outcomes n

/-- The requests in all the bytes received so far. -/
def sent (peer : Peer) (conn : Connection) : List Request :=
  (drain (wireParser peer) ParseState.start conn.received).out

theorem covered_le (outcomes : ℕ → Execution) (n : ℕ) : covered outcomes n ≤ n := by
  induction n with
  | zero => exact Nat.le_refl 0
  | succ n ih =>
      rw [covered]
      split <;> omega

end Connection

/-- The offset behind a request lies past the ones before it. -/
theorem ends_of_leads {peer : Peer} {s s' : ParseState} {input rest : Text} {out : List Request}
    (leads : Leads (wireParser peer) s input out s' rest) :
    s.pos ≤ s'.pos ∧ ∀ r ∈ out, s.pos < r.2 := by
  induction leads with
  | refl => exact ⟨Nat.le_refl _, fun r member => by cases member⟩
  | head first _ ih =>
      obtain ⟨positive, _, moved⟩ := ParseState.next_step first
      refine ⟨by omega, fun r member => ?_⟩
      rcases List.mem_append.mp member with here | later
      · rcases ParseState.next_out first with rfl | ⟨argv, rfl⟩
        · cases here
        · rw [List.mem_singleton.mp here]
          show _ < _
          omega
      · have := ih.2 r later
        omega

/-- Requests end one after the other. -/
theorem ends_pairwise {peer : Peer} {s s' : ParseState} {input rest : Text} {out : List Request}
    (leads : Leads (wireParser peer) s input out s' rest) :
    out.Pairwise fun q r => q.2 < r.2 := by
  induction leads with
  | refl => exact .nil
  | head first others ih =>
      rcases ParseState.next_out first with rfl | ⟨argv, rfl⟩
      · exact ih
      · exact List.pairwise_cons.mpr ⟨(ends_of_leads others).2, ih⟩

/-- So those that end early are the first ones. -/
theorem filter_prefix_filter {out : List Request} (sorted : out.Pairwise fun q r => q.2 < r.2)
    {base low high : ℤ} (le : low ≤ high) :
    out.filter (fun r => base + r.2 ≤ low) <+: out.filter fun r => base + r.2 ≤ high := by
  induction out with
  | nil => exact List.prefix_rfl
  | cons q out ih =>
      obtain ⟨later, sorted⟩ := List.pairwise_cons.mp sorted
      by_cases early : base + q.2 ≤ low
      · have both : decide (base + q.2 ≤ low) = true ∧ decide (base + q.2 ≤ high) = true :=
          ⟨decide_eq_true early, decide_eq_true (early.trans le)⟩
        rw [List.filter_cons, List.filter_cons, if_pos both.1, if_pos both.2]
        exact (List.prefix_cons_inj q).mpr (ih sorted)
      · have none : (q :: out).filter (fun r => base + r.2 ≤ low) = [] := by
          refine List.filter_eq_nil_iff.mpr fun r member => ?_
          simp only [decide_eq_true_eq]
          rcases List.mem_cons.mp member with rfl | other
          · exact early
          · have := later r other
            omega
        rw [none]
        exact List.nil_prefix

namespace Connection

variable {service : Service} {peer : Peer} {base : ℤ} {conn conn' : Connection}
  {s : ParseState} {past : List Request} {queue : List (ParsedCommand × ℕ)}

/-- The client with a command that waits for the end of a pause back in its queue. -/
def rejoined (conn : Connection) : QueryClient :=
  { conn.client with vecqueuedcmd := conn.pending.toList ++ conn.client.vecqueuedcmd }

theorem rejoined_of_ready (ready : conn.Ready) : conn.rejoined = conn.client := by
  rw [rejoined, ready.2.1]
  rfl

/-- The connection has got to `s` in what it received: the requests up to there are the
executed ones, one that waits, and those in the queue. -/
structure Tracks (service : Service) (base : ℤ) (conn : Connection) (s : ParseState)
    (past : List Request) (queue : List (ParsedCommand × ℕ)) : Prop where
  leads : Leads (wireParser service.peer) ParseState.start conn.received (past ++ requests queue) s
    conn.client.unread
  stands : conn.rejoined.Stands service.peer base s queue
  whole : ∀ cmd ∈ conn.pending, cmd.argv.length = cmd.argcMax
  executed : past.map Prod.fst = conn.executed
  applied : service.peer.master = true →
    ∀ r ∈ past.take (covered service.outcomes past.length), base + r.2 ≤ conn.reploff
  held : service.peer.master = true →
    ∀ r ∈ past.drop (covered service.outcomes past.length), conn.reploff < base + r.2
  ahead : service.peer.master = true → ∀ q ∈ queue, conn.reploff < base + q.2
  reached : service.peer.master = true → conn.reploff ≤ base + s.pos

theorem fresh_tracks (service : Service) (base : ℤ) :
    Tracks service base (fresh base) ParseState.start [] [] where
  leads := .refl _ _
  stands :=
    { reads :=
        { inside := Nat.le_refl _
          left := rfl
          bulk := rfl
          idle := fun _ => ⟨rfl, rfl, rfl⟩
          busy := fun some_left => absurd rfl some_left
          typed := fun _ unknown => by cases unknown }
      tracked := ⟨by simp, by simp, by simp, by simp, by simp⟩
      offset := fun _ => by simp [fresh, rejoined, ParseState.start, QueryClient.unread] }
  whole := fun cmd waits => by cases waits
  executed := rfl
  applied := fun _ r member => by cases member
  held := fun _ r member => by cases member
  ahead := fun _ q member => by cases member
  reached := fun _ => by simp [fresh, ParseState.start]

/-- Bytes that arrive do not change what was parsed. -/
theorem Tracks.receive (tracks : Tracks service base conn s past queue) (chunk : Text) :
    Tracks service base (conn.receive service.peer chunk) s past queue := by
  have reads := tracks.stands.reads
  have unread : (conn.client.querybuf ++ chunk).drop conn.client.qbPos =
      conn.client.unread ++ chunk :=
    List.drop_append_of_le_length reads.inside
  refine
    { tracks with
      leads := ?_
      stands := ⟨?_, tracks.stands.tracked, ?_⟩ }
  · show Leads _ _ _ _ s ((conn.client.querybuf ++ chunk).drop conn.client.qbPos)
    rw [unread]
    exact tracks.leads.append chunk
  · refine
      { reads with
        inside := ?_
        typed := ?_ }
    · show conn.client.qbPos ≤ (conn.client.querybuf ++ chunk).length
      rw [List.length_append]
      exact Nat.le_trans reads.inside (Nat.le_add_right _ _)
    · intro kind known idle
      show (conn.client.querybuf ++ chunk).drop conn.client.qbPos ≠ [] ∧
        (_ ↔ ((conn.client.querybuf ++ chunk).drop conn.client.qbPos).head? = _)
      rw [unread]
      obtain ⟨more, agrees⟩ := reads.typed kind known idle
      refine ⟨List.append_ne_nil_of_left_ne_nil more _, ?_⟩
      rw [agrees]
      exact iff_of_eq (congrArg (· = some '*') (List.head?_append_of_ne_nil _ more).symm)
  · intro master
    have offset : conn.client.readReploff = base + s.pos + conn.client.unread.length :=
      tracks.stands.offset master
    show (if service.peer.master = true then _ else _) =
      base + s.pos + ((conn.client.querybuf ++ chunk).drop conn.client.qbPos).length
    rw [unread, if_pos master, List.length_append]
    show conn.client.readReploff + chunk.length = _
    rw [offset]
    push_cast
    omega

/-- Parsing puts the requests it comes past into the queue, and a client that is still ready
afterwards has no complete request left. -/
theorem Tracks.parse (tracks : Tracks service base conn s past queue) :
    ∃ s' queue', Tracks service base (conn.parse service.peer) s' past queue' ∧
      ((conn.parse service.peer).Ready →
        s'.next service.peer (conn.parse service.peer).client.unread = .wait) := by
  unfold Connection.parse
  split
  · rename_i ready
    have standing := tracks.stands
    rw [rejoined_of_ready ready] at standing
    obtain ⟨s', out, queue', leads, stands, put, stopped⟩ :=
      QueryClient.parseClientCommandBuffer_spec standing
    obtain ⟨further, ends⟩ := ends_of_leads leads
    refine ⟨s', queue', ?_, ?_⟩
    · refine
        { tracks with
          leads := ?_
          stands := ?_
          ahead := ?_
          reached := ?_ }
      · rw [put, ← List.append_assoc]
        exact tracks.leads.trans leads
      · rw [rejoined, ready.2.1]
        exact stands
      · intro master q member
        have put_out : (q.1.argv, q.2) ∈ requests queue' :=
          List.mem_map.mpr ⟨q, member, rfl⟩
        rw [put] at put_out
        rcases List.mem_append.mp put_out with old | new
        · obtain ⟨q', inside, same⟩ := List.mem_map.mp old
          have := tracks.ahead master q' inside
          have ends : q'.2 = q.2 := (Prod.mk.inj same).2
          show conn.reploff < base + q.2
          omega
        · have later : s.pos < q.2 := ends _ new
          have := tracks.reached master
          show conn.reploff < base + q.2
          omega
      · intro master
        have := tracks.reached master
        show conn.reploff ≤ base + s'.pos
        omega
    · intro still
      rcases stopped with ⟨_, waits⟩ | ⟨reason, failed⟩
      · exact waits
      · have none_left : (conn.client.parseClientCommandBuffer service.peer).errors = [] :=
          still.2.2.2
        rw [failed] at none_left
        exact absurd none_left (List.append_ne_nil_of_right_ne_nil _ (List.cons_ne_nil _ _))
  · rename_i stuck
    exact ⟨s, queue, tracks, fun ready => absurd ready stuck⟩

def withQueue (conn : Connection) (queue : List ParsedCommand) : Connection :=
  { conn with client := { conn.client with vecqueuedcmd := queue } }

/-- Where a command leaves a master's offset: at its end, or past the empty requests behind
it, or where it was. -/
theorem execute_reploff (conn : Connection) (cmd : ParsedCommand) (outcome : Execution)
    (master : peer.master = true) :
    (conn.execute peer cmd outcome).reploff =
      if outcome.applies then cmd.reploff else conn.reploff := by
  simp only [execute, master, Bool.true_and]

/-- The commands that the offset tells of after one more: all of them, or the same ones. -/
theorem take_covered (outcomes : ℕ → Execution) (past : List Request) (r : Request) :
    (past ++ [r]).take (covered outcomes (past ++ [r]).length) =
      if (outcomes past.length).applies then past ++ [r]
      else past.take (covered outcomes past.length) := by
  rw [List.length_append, List.length_singleton, covered]
  split
  · exact List.take_of_length_le (by rw [List.length_append, List.length_singleton])
  · exact List.take_append_of_le_length (covered_le outcomes past.length)

theorem drop_covered (outcomes : ℕ → Execution) (past : List Request) (r : Request) :
    (past ++ [r]).drop (covered outcomes (past ++ [r]).length) =
      if (outcomes past.length).applies then []
      else past.drop (covered outcomes past.length) ++ [r] := by
  rw [List.length_append, List.length_singleton, covered]
  split
  · exact List.drop_of_length_le (by rw [List.length_append, List.length_singleton])
  · exact List.drop_append_of_le_length (covered_le outcomes past.length)

/-- The client goes on without the command at the front of its queue. -/
theorem stands_of_dequeue {q : ParsedCommand × ℕ} {rest : List ParsedCommand} {c : QueryClient}
    (stands : QueryClient.Stands peer base { c with vecqueuedcmd := q.1 :: rest } s (q :: queue)) :
    QueryClient.Stands peer base { c with vecqueuedcmd := rest } s queue := by
  have reads := stands.reads
  have tracked := stands.tracked
  refine ⟨{ reads with idle := ?_, busy := ?_ }, ?_, stands.offset⟩
  · intro idle
    obtain ⟨no_bulk, no_args, same⟩ := reads.idle idle
    exact ⟨no_bulk, no_args, (List.cons.inj same).2⟩
  · intro busy
    obtain ⟨same, kind⟩ := reads.busy busy
    exact ⟨(List.cons.inj same).2, kind⟩
  · exact
      { nonempty := fun r member => tracked.nonempty r (List.mem_cons_of_mem _ member)
        complete := fun r member => tracked.complete r (List.mem_cons_of_mem _ member)
        behind := fun master r member => tracked.behind master r (List.mem_cons_of_mem _ member)
        bound := fun master r member => tracked.bound master r (List.mem_cons_of_mem _ member)
        apart := fun master => (List.pairwise_cons.mp (tracked.apart master)).2 }

/-- The command at the front is executed. -/
theorem Tracks.execute {q : ParsedCommand × ℕ} {rest : List ParsedCommand}
    (tracks : Tracks service base (conn.withQueue (q.1 :: rest)) s past (q :: queue))
    (free : conn.pending = none) :
    Tracks service base
      ((conn.execute service.peer q.1 (service.outcomes conn.executed.length)).withQueue rest) s
      (past ++ [(q.1.argv, q.2)]) queue := by
  have standing := tracks.stands
  rw [rejoined, show (conn.withQueue (q.1 :: rest)).pending = none from free] at standing
  have tracked := standing.tracked
  have executed : past.map Prod.fst = conn.executed := tracks.executed
  have count : conn.executed.length = past.length := by rw [← executed, List.length_map]
  -- Requests end one after the other, so all that was executed ends before this command.
  have before : ∀ r ∈ past, r.2 < q.2 := fun r member =>
    (List.pairwise_append.mp (ends_pairwise tracks.leads)).2.2 r member _ List.mem_cons_self
  have offset (master : service.peer.master = true) :
      ((conn.execute service.peer q.1 (service.outcomes conn.executed.length)).withQueue
        rest).reploff = if (service.outcomes past.length).applies then q.1.reploff
          else conn.reploff := by
    rw [← count]
    exact execute_reploff _ _ _ master
  refine
    { leads := ?_
      stands := stands_of_dequeue standing
      whole := fun cmd waits => by cases waits
      executed := ?_
      applied := ?_
      held := ?_
      ahead := ?_
      reached := ?_ }
  · rw [List.append_assoc]
    exact tracks.leads
  · rw [List.map_append, executed]
    rfl
  · intro master r member
    rw [take_covered] at member
    rw [offset master]
    split at member
    · rename_i applies
      have behind := tracked.behind master q List.mem_cons_self
      rw [if_pos applies]
      rcases List.mem_append.mp member with old | new
      · have := before r old
        omega
      · rw [List.mem_singleton.mp new]
        exact behind
    · rename_i stays
      rw [if_neg stays]
      exact tracks.applied master r member
  · intro master r member
    rw [drop_covered] at member
    rw [offset master]
    split at member
    · cases member
    · rename_i stays
      rw [if_neg stays]
      rcases List.mem_append.mp member with old | new
      · exact tracks.held master r old
      · rw [List.mem_singleton.mp new]
        exact tracks.ahead master q List.mem_cons_self
  · intro master r member
    rw [offset master]
    split
    · exact (List.pairwise_cons.mp (tracked.apart master)).1 r member
    · exact tracks.ahead master r (List.mem_cons_of_mem _ member)
  · intro master
    rw [offset master]
    split
    · exact tracked.bound master q List.mem_cons_self
    · exact tracks.reached master

/-- The command at the front is handed over: it is executed, or it waits for the end of a
pause. -/
theorem Tracks.processCommand {q : ParsedCommand × ℕ} {rest : List ParsedCommand}
    (tracks : Tracks service base (conn.withQueue (q.1 :: rest)) s past (q :: queue))
    (free : conn.pending = none) :
    let after := conn.processCommandAndResetClient service q.1
    after.client = conn.client ∧ after.received = conn.received ∧
      (service.peer.master = true → conn.reploff ≤ after.reploff) ∧
      ∃ past' queue', Tracks service base (after.withQueue rest) s past' queue' := by
  unfold processCommandAndResetClient
  simp only
  split
  · refine ⟨rfl, rfl, fun _ => Int.le_refl _, past, q :: queue,
      { tracks with stands := ?_, whole := ?_ }⟩
    · have standing := tracks.stands
      rw [rejoined, show (conn.withQueue (q.1 :: rest)).pending = none from free] at standing
      exact standing
    · intro cmd waits
      cases waits
      exact (tracks.stands.tracked.complete q List.mem_cons_self).symm
  · refine ⟨rfl, rfl, fun master => ?_, _, queue, tracks.execute free⟩
    rw [execute_reploff _ _ _ master]
    split
    · have : conn.reploff < base + q.2 := tracks.ahead master q List.mem_cons_self
      have := tracks.stands.tracked.behind master q List.mem_cons_self
      omega
    · exact Int.le_refl _

/-- At the front of the queue is a command that has been read completely, or the only one,
which is still being read. -/
theorem front_of_reads {c : QueryClient} {cmd : ParsedCommand} {rest : List ParsedCommand}
    (reads : c.Reads s (queue.map Prod.fst)) (queued : c.vecqueuedcmd = cmd :: rest) :
    (queue = [] ∧ cmd.argv.length ≠ cmd.argcMax) ∨ ∃ q queue', queue = q :: queue' ∧ cmd = q.1 := by
  cases queue with
  | nil =>
      have busy : s.left ≠ 0 := fun idle =>
        List.cons_ne_nil _ _ (queued.symm.trans (reads.idle idle).2.2)
      have same : cmd = ⟨s.argv, s.argv.length + s.left, 0⟩ :=
        (List.cons.inj (queued.symm.trans (reads.busy busy).1)).1
      refine .inl ⟨rfl, ?_⟩
      rw [same]
      show s.argv.length ≠ s.argv.length + s.left
      omega
  | cons q queue' =>
      refine .inr ⟨q, queue', rfl, ?_⟩
      by_cases idle : s.left = 0
      · exact (List.cons.inj (queued.symm.trans (reads.idle idle).2.2)).1
      · exact (List.cons.inj (queued.symm.trans (reads.busy idle).1)).1

/-- What the loop over the queue leaves. It stops at a command that is not complete, and
before if the client is no longer ready. -/
theorem processQueue_spec (remaining : List ParsedCommand) :
    ∀ {conn : Connection} {past : List Request} {queue : List (ParsedCommand × ℕ)},
      Tracks service base (conn.withQueue remaining) s past queue →
        let after := processQueue service remaining conn
        after.client.unread = conn.client.unread ∧ after.received = conn.received ∧
          (after.Ready → conn.Ready) ∧
          (service.peer.master = true → conn.reploff ≤ after.reploff) ∧
          ∃ past' queue', Tracks service base after s past' queue' ∧
            (after.Ready → queue' = []) := by
  induction remaining with
  | nil =>
      intro conn past queue tracks
      refine ⟨rfl, rfl, id, fun _ => Int.le_refl _, past, queue, tracks, fun ready => ?_⟩
      have reads := tracks.stands.reads
      rw [rejoined_of_ready (show (conn.withQueue []).Ready from ready)] at reads
      by_cases idle : s.left = 0
      · exact List.map_eq_nil_iff.mp (reads.idle idle).2.2.symm
      · exact absurd (reads.busy idle).1.symm
          (List.append_ne_nil_of_right_ne_nil _ (List.cons_ne_nil _ _))
  | cons cmd rest ih =>
      intro conn past queue tracks
      simp only [processQueue]
      by_cases ready : conn.Ready
      case neg =>
        rw [if_neg fun both => ready both.2]
        exact ⟨rfl, rfl, id, fun _ => Int.le_refl _, past, queue, tracks,
          fun now => absurd now ready⟩
      have standing := tracks.stands
      rw [rejoined_of_ready (show (conn.withQueue (cmd :: rest)).Ready from ready)] at standing
      have tracked := standing.tracked
      rcases front_of_reads standing.reads rfl with ⟨rfl, unfinished⟩ | ⟨q, queue', rfl, rfl⟩
      · rw [if_neg fun both => unfinished both.1]
        exact ⟨rfl, rfl, id, fun _ => Int.le_refl _, past, [], tracks, fun _ => rfl⟩
      · have complete := tracked.complete q List.mem_cons_self
        have nonempty := tracked.nonempty q List.mem_cons_self
        rw [if_pos ⟨complete.symm, ready⟩, if_neg nonempty]
        obtain ⟨client, kept, moved, _, _, handed⟩ := tracks.processCommand ready.2.1
        obtain ⟨unread, received, _, grows, left⟩ := ih handed
        exact ⟨unread.trans (congrArg _ client), received.trans kept, fun _ => ready,
          fun master => (moved master).trans (grows master), left⟩

/-- Every step keeps the connection at a place in what it has received, and a client that
is ready has been through all of it. -/
def InPlace (service : Service) (base : ℤ) (conn : Connection) : Prop :=
  ∃ s past queue, Tracks service base conn s past queue ∧
    (conn.Ready → s.next service.peer conn.client.unread = .wait)

theorem process_spec (place : InPlace service base conn) :
    (service.peer.master = true → conn.reploff ≤ (conn.process service).reploff) ∧
      InPlace service base (conn.process service) ∧
      ((conn.process service).Ready →
        (conn.process service).executed = (conn.sent service.peer).map Prod.fst) := by
  obtain ⟨s, past, queue, tracks, waits⟩ := place
  obtain ⟨unread, received, before, grows, past', queue', after, emptied⟩ :=
    processQueue_spec conn.client.vecqueuedcmd tracks
  have still (ready : (conn.process service).Ready) :
      s.next service.peer (conn.process service).client.unread = .wait :=
    (congrArg (s.next service.peer) unread).trans (waits (before ready))
  refine ⟨grows, ⟨s, past', queue', after, still⟩, fun ready => ?_⟩
  have all := after.leads.drain_of_wait (still ready)
  have at_end : (conn.process service).received = conn.received := received
  rw [emptied ready] at all
  have out : conn.sent service.peer = past' := by
    unfold sent
    rw [← at_end]
    exact (congrArg Result.out all).trans (List.append_nil _)
  rw [out]
  exact after.executed.symm

theorem InPlace.parse (tracks : Tracks service base conn s past queue) :
    InPlace service base (conn.parse service.peer) :=
  have ⟨s', queue', parsed, waits⟩ := tracks.parse
  ⟨s', past, queue', parsed, waits⟩

/-- At the end of a pause the command that waited is handed over again. -/
theorem Tracks.processPending (tracks : Tracks service base conn s past queue) :
    let after := conn.processPending service
    after.client = conn.client ∧ after.received = conn.received ∧
      (service.peer.master = true → conn.reploff ≤ after.reploff) ∧
      ∃ past' queue', Tracks service base after s past' queue' := by
  unfold Connection.processPending
  split
  · exact ⟨rfl, rfl, fun _ => Int.le_refl _, past, queue, tracks⟩
  · rename_i cmd waits
    have standing := tracks.stands
    have again : Tracks service base
        ({ conn with pending := none }.withQueue (cmd :: conn.client.vecqueuedcmd)) s past
        queue := by
      refine { tracks with stands := ?_, whole := fun _ none => by cases none }
      rw [rejoined, waits] at standing
      exact standing
    rcases front_of_reads again.stands.reads rfl with ⟨_, unfinished⟩ | ⟨q, queue', rfl, rfl⟩
    · exact absurd (tracks.whole cmd waits) unfinished
    · obtain ⟨client, kept, moved, past', queue'', handed⟩ := again.processCommand rfl
      refine ⟨client, kept, moved, past', queue'', ?_⟩
      have same : conn.client.vecqueuedcmd =
          (({ conn with pending := none } : Connection).processCommandAndResetClient service
            q.1).client.vecqueuedcmd := congrArg QueryClient.vecqueuedcmd client.symm
      rw [same] at handed
      exact handed

theorem parse_reploff (conn : Connection) : (conn.parse peer).reploff = conn.reploff := by
  unfold Connection.parse
  split <;> rfl

theorem Tracks.unblock (tracks : Tracks service base conn s past queue) :
    InPlace service base (conn.unblock service) ∧
      (service.peer.master = true → conn.reploff ≤ (conn.unblock service).reploff) := by
  have released : Tracks service base { conn with blocked := false } s past queue :=
    { tracks with }
  obtain ⟨_, _, moved, past', queue', handed⟩ := released.processPending
  unfold Connection.unblock
  simp only
  split
  · obtain ⟨grows, place, _⟩ := process_spec (.parse handed)
    refine ⟨place, fun master => (moved master).trans ?_⟩
    have grown := grows master
    rwa [parse_reploff] at grown
  · rename_i nothing
    refine ⟨⟨s, past', queue', handed, fun _ => ?_⟩, moved⟩
    rw [QueryClient.unread, not_not.mp nothing, List.drop_nil, ParseState.next_nil]

/-- Every step keeps the place, and the offset that a replica has applied does not go back. -/
theorem InPlace.step {event : InputEvent} (place : InPlace service base conn)
    (taken : conn.step service event = some conn') :
    InPlace service base conn' ∧ (service.peer.master = true → conn.reploff ≤ conn'.reploff) := by
  cases event with
  | read chunk =>
      simp only [Connection.step, Option.ite_none_right_eq_some, Option.some.injEq] at taken
      obtain ⟨_, rfl⟩ := taken
      obtain ⟨s, past, queue, tracks, _⟩ := place
      have received := tracks.receive chunk
      unfold readQueryFromClient
      simp only
      split
      · exact ⟨⟨s, past, queue, { received with }, fun ready => absurd ready.2.2.1 (by simp)⟩,
          fun _ => Int.le_refl _⟩
      · refine ⟨.parse received, fun _ => ?_⟩
        rw [parse_reploff]
        exact Int.le_refl _
  | process =>
      cases taken
      exact ⟨(process_spec place).2.1, (process_spec place).1⟩
  | unblock =>
      simp only [Connection.step, Option.ite_none_right_eq_some, Option.some.injEq] at taken
      obtain ⟨_, rfl⟩ := taken
      obtain ⟨s, past, queue, tracks, _⟩ := place
      exact tracks.unblock

theorem inPlace_of_run (run : Reaches (step service) (fresh base) conn) :
    InPlace service base conn :=
  run.invariant ⟨_, _, _, fresh_tracks service base, fun _ => ParseState.next_nil _ _⟩
    fun _ _ _ place _ taken => (place.step taken).1

theorem parse_received (conn : Connection) : (conn.parse peer).received = conn.received := by
  unfold Connection.parse
  split <;> rfl

theorem processCommand_received (conn : Connection) (cmd : ParsedCommand) :
    (conn.processCommandAndResetClient service cmd).received = conn.received := by
  unfold processCommandAndResetClient
  split <;> rfl

theorem processQueue_received (queue : List ParsedCommand) (conn : Connection) :
    (processQueue service queue conn).received = conn.received := by
  induction queue generalizing conn with
  | nil => rfl
  | cons cmd queue ih =>
      rw [processQueue]
      split
      · split
        · exact ih conn
        · rw [ih, processCommand_received]
      · rfl

theorem unblock_received (conn : Connection) : (conn.unblock service).received = conn.received := by
  have handed : (({ conn with blocked := false } : Connection).processPending service).received =
      conn.received := by
    unfold Connection.processPending
    split
    · rfl
    · rw [processCommand_received]
  unfold Connection.unblock
  simp only
  split
  · rw [process, processQueue_received, parse_received, handed]
  · exact handed

/-- Only reading adds to what has been received. -/
theorem received_of_step {event : InputEvent} (taken : conn.step service event = some conn') :
    conn'.received = conn.received ++ match event with
      | .read chunk => chunk
      | _ => [] := by
  cases event with
  | read chunk =>
      simp only [Connection.step, Option.ite_none_right_eq_some, Option.some.injEq] at taken
      obtain ⟨_, rfl⟩ := taken
      unfold readQueryFromClient
      simp only
      split
      · rfl
      · exact parse_received _
  | process =>
      cases taken
      exact (processQueue_received _ conn).trans (List.append_nil _).symm
  | unblock =>
      simp only [Connection.step, Option.ite_none_right_eq_some, Option.some.injEq] at taken
      obtain ⟨_, rfl⟩ := taken
      exact (unblock_received conn).trans (List.append_nil _).symm

/-- Of what a master sends, the commands up to the applied offset are executed ones: those
up to the last that moved it. -/
theorem Tracks.filter_eq_take (tracks : Tracks service base conn s past queue)
    (master : service.peer.master = true) (more : Text) :
    ((drain (wireParser service.peer) ParseState.start (conn.received ++ more)).out.filter
        fun r => base + r.2 ≤ conn.reploff).map Prod.fst =
      conn.executed.take (covered service.outcomes conn.executed.length) := by
  have later := (ends_of_leads (leads_drain (wireParser service.peer) s
    (conn.client.unread ++ more))).2
  have reached := tracks.reached master
  have count : past.length = conn.executed.length := by
    rw [← tracks.executed, List.length_map]
  have kept : (past.take (covered service.outcomes past.length)).filter
      (fun r => base + r.2 ≤ conn.reploff) = past.take (covered service.outcomes past.length) :=
    List.filter_eq_self.mpr fun r member => decide_eq_true (tracks.applied master r member)
  have held : (past.drop (covered service.outcomes past.length)).filter
      (fun r => base + r.2 ≤ conn.reploff) = [] := by
    refine List.filter_eq_nil_iff.mpr fun r member => ?_
    have := tracks.held master r member
    simp only [decide_eq_true_eq]
    omega
  have waiting : (requests queue).filter (fun r => base + r.2 ≤ conn.reploff) = [] := by
    refine List.filter_eq_nil_iff.mpr fun r member => ?_
    obtain ⟨q, inside, rfl⟩ := List.mem_map.mp member
    have := tracks.ahead master q inside
    simp only [decide_eq_true_eq]
    omega
  have unparsed : (drain (wireParser service.peer) s (conn.client.unread ++ more)).out.filter
      (fun r => base + r.2 ≤ conn.reploff) = [] := by
    refine List.filter_eq_nil_iff.mpr fun r member => ?_
    have := later r member
    simp only [decide_eq_true_eq]
    omega
  have split := List.take_append_drop (covered service.outcomes past.length) past
  have executed : past.filter (fun r => base + r.2 ≤ conn.reploff) =
      past.take (covered service.outcomes past.length) := by
    conv_lhs => rw [← split]
    rw [List.filter_append, kept, held, List.append_nil]
  rw [(tracks.leads.append more).drain]
  simp only [List.filter_append, executed, waiting, unparsed, List.append_nil]
  rw [List.map_take, tracks.executed, count]

end Connection

end KeyDB

import DistributedColoring.QueryBuffer

set_option autoImplicit false

/- The parsing loop of the server makes the steps of the wire format, whatever part of a
command the query buffer holds and wherever it was cut. -/
namespace KeyDB

open CText StreamParser

namespace QueryClient

variable {peer : Peer} {c c' : QueryClient} {s : ParseState} {done : List ParsedCommand}

theorem unread_skip (c : QueryClient) (n : ℕ) : (c.skip n).unread = c.unread.drop n := by
  rw [unread, unread, List.drop_drop]
  rfl

theorem length_unread (c : QueryClient) : c.unread.length = c.querybuf.length - c.qbPos :=
  List.length_drop

theorem skip_inside {n : ℕ} (inside : c.qbPos ≤ c.querybuf.length) (bound : n ≤ c.unread.length) :
    (c.skip n).qbPos ≤ (c.skip n).querybuf.length := by
  rw [length_unread] at bound
  show c.qbPos + n ≤ c.querybuf.length
  omega

/-- Cutting the buffer loses nothing that is unread. -/
theorem unread_alignBigArg (c : QueryClient) (count : ℕ) :
    (c.alignBigArg count).unread = c.unread := by
  unfold alignBigArg
  split
  · rfl
  · rfl

theorem alignBigArg_inside {count : ℕ} (inside : c.qbPos ≤ c.querybuf.length) :
    (c.alignBigArg count).qbPos ≤ (c.alignBigArg count).querybuf.length := by
  unfold alignBigArg
  split
  · exact Nat.zero_le _
  · exact inside

theorem alignBigArg_fields (c : QueryClient) (count : ℕ) :
    (c.alignBigArg count).reqtype = c.reqtype ∧
      (c.alignBigArg count).multibulklen = c.multibulklen ∧
      (c.alignBigArg count).vecqueuedcmd = c.vecqueuedcmd ∧
      (c.alignBigArg count).readReploff = c.readReploff ∧
      (c.alignBigArg count).errors = c.errors := by
  unfold alignBigArg
  split
  · exact ⟨rfl, rfl, rfl, rfl, rfl⟩
  · exact ⟨rfl, rfl, rfl, rfl, rfl⟩

/-- The client is where the parser is: `done` are the complete commands of its queue. -/
structure Reads (c : QueryClient) (s : ParseState) (done : List ParsedCommand) : Prop where
  inside : c.qbPos ≤ c.querybuf.length
  left : c.multibulklen = s.left
  bulk : c.bulklen = s.bulk
  idle : s.left = 0 → s.bulk = none ∧ s.argv = [] ∧ c.vecqueuedcmd = done
  busy : s.left ≠ 0 →
    c.vecqueuedcmd = done ++ [⟨s.argv, s.argv.length + s.left, 0⟩] ∧ c.reqtype = some .multibulk
  typed : ∀ kind, c.reqtype = some kind → s.left = 0 →
    c.unread ≠ [] ∧ (kind = .multibulk ↔ c.unread.head? = some '*')

/-- Parsing stops in the middle of a request: the parser waits, or there was an error. -/
def Stops (peer : Peer) (c : QueryClient) (s : ParseState) (done : List ParsedCommand)
    (c' : QueryClient) : Prop :=
  ∃ s', Leads (wireParser peer) s c.unread [] s' c'.unread ∧ c'.Reads s' done ∧
    c'.readReploff = c.readReploff ∧
      (c'.errors = c.errors ∧ s'.next peer c'.unread = .wait ∨
        ∃ reason, c'.errors = c.errors ++ [reason])

/-- A request is complete. An empty one puts nothing into the queue. -/
def Completes (peer : Peer) (c : QueryClient) (s : ParseState) (done : List ParsedCommand)
    (c' : QueryClient) : Prop :=
  ∃ (pos : ℕ) (out : List Request),
    Leads (wireParser peer) s c.unread out ⟨pos, 0, none, []⟩ c'.unread ∧ s.pos < pos ∧
      c'.vecqueuedcmd = done ++ out.map (fun r => ⟨r.1, r.1.length, 0⟩) ∧
      (∀ r ∈ out, r.1 ≠ [] ∧ r.2 = pos) ∧ out.length ≤ 1 ∧
      c'.qbPos ≤ c'.querybuf.length ∧ c'.readReploff = c.readReploff ∧ c'.errors = c.errors

theorem Reads.withError (reads : c.Reads s done) (reason : ProtocolError) :
    (c.setProtocolError reason).Reads s done :=
  ⟨reads.inside, reads.left, reads.bulk, reads.idle, reads.busy, reads.typed⟩

theorem stops_of_error (reads : c.Reads s done) (reason : ProtocolError) :
    Stops peer c s done (c.setProtocolError reason) :=
  ⟨s, .refl _ _, reads.withError reason, rfl, .inr ⟨reason, rfl⟩⟩

theorem stops_of_wait (reads : c.Reads s done) (waits : s.next peer c.unread = .wait) :
    Stops peer c s done c :=
  ⟨s, .refl _ _, reads, rfl, .inl ⟨rfl, waits⟩⟩

/-- A length is announced, or was before. -/
theorem readBulkLen_done (reads : c.Reads s done) (busy : s.left ≠ 0)
    (read : c.readBulkLen peer = .done c') :
    ∃ s' count, Leads (wireParser peer) s c.unread [] s' c'.unread ∧ c'.Reads s' done ∧
      s'.left = s.left ∧ s.pos ≤ s'.pos ∧ s'.bulk = some count ∧
      c'.readReploff = c.readReploff ∧ c'.errors = c.errors := by
  unfold readBulkLen at read
  split at read
  · rename_i count known
    cases read
    exact ⟨s, count, .refl _ _, reads, rfl, Nat.le_refl _, reads.bulk.symm.trans known, rfl, rfl⟩
  · rename_i unknown
    split at read
    · split at read
      · cases read
      · cases read
    · rename_i newline found
      split at read
      · cases read
      · rename_i whole
        split at read
        · cases read
        · rename_i count valid
          cases read
          obtain ⟨queue, kind⟩ := reads.busy busy
          obtain ⟨reqtype, left, queued, offset, errors⟩ :=
            (c.skip (newline + 2)).alignBigArg_fields count
          have step : s.next peer c.unread = .step (newline + 2)
              { s with pos := s.pos + (newline + 2), bulk := some count } [] := by
            rw [ParseState.next, if_neg busy, ← reads.bulk, unknown]
            simp only [ParseState.onLine, found, if_neg whole, ParseState.argumentHeader, valid]
          have leads := Leads.single (P := wireParser peer) step
          have rest :
              { (c.skip (newline + 2)).alignBigArg count with bulklen := some count }.unread =
                c.unread.drop (newline + 2) := by
            show ((c.skip (newline + 2)).alignBigArg count).unread = _
            rw [unread_alignBigArg, unread_skip]
          refine ⟨{ s with pos := s.pos + (newline + 2), bulk := some count }, count, ?_, ?_, rfl,
            Nat.le_add_right _ _, rfl, offset, errors⟩
          · rw [rest]
            exact leads
          exact
            { inside := alignBigArg_inside (skip_inside reads.inside (by omega))
              left := left.trans reads.left
              bulk := rfl
              idle := fun none_left => absurd none_left busy
              busy := fun _ => ⟨queued.trans queue, reqtype.trans kind⟩
              typed := fun _ _ none_left => absurd none_left busy }

theorem readBulkLen_blocked (reads : c.Reads s done) (busy : s.left ≠ 0)
    (read : c.readBulkLen peer = .blocked) : s.next peer c.unread = .wait := by
  unfold readBulkLen at read
  split at read
  · cases read
  · rename_i unknown
    rw [ParseState.next, if_neg busy, ← reads.bulk, unknown]
    simp only [ParseState.onLine]
    split at read
    · rfl
    · split at read
      · rename_i short
        rw [if_pos short]
      · split at read
        · cases read
        · cases read

theorem addArg_queue {argv : List Text} {count : ℕ}
    (queue : c.vecqueuedcmd = done ++ [⟨argv, count, 0⟩])
    (arg : Text) : (c.addArg arg).vecqueuedcmd = done ++ [⟨argv ++ [arg], count, 0⟩] := by
  rw [addArg, queue]
  exact List.modifyLast_concat _ _ _

/-- An argument that is there is read the same way on both paths. -/
theorem readBulk_done {count : ℕ} {argv : List Text} {total : ℕ}
    (queue : c.vecqueuedcmd = done ++ [⟨argv, total, 0⟩]) (read : c.readBulk count = .done c') :
    count + 2 ≤ c.unread.length ∧ c'.unread = c.unread.drop (count + 2) ∧
      (c.qbPos ≤ c.querybuf.length → c'.qbPos ≤ c'.querybuf.length) ∧
      c'.vecqueuedcmd = done ++ [⟨argv ++ [c.unread.take count], total, 0⟩] ∧
      c'.multibulklen = c.multibulklen - 1 ∧ c'.bulklen = none ∧ c'.reqtype = c.reqtype ∧
      c'.readReploff = c.readReploff ∧ c'.errors = c.errors := by
  unfold readBulk at read
  split at read
  · cases read
  · rename_i whole
    split at read
    · rename_i alone
      cases read
      have same : c.unread = c.querybuf := by
        rw [unread, alone.1, List.drop_zero]
      refine ⟨by omega, ?_, fun _ => alone.1.le, ?_, rfl, rfl, rfl, rfl, rfl⟩
      · rw [same, ← alone.2.2, List.drop_length]
        show List.drop _ [] = []
        rw [List.drop_nil]
      · rw [same]
        exact addArg_queue queue _
    · cases read
      refine ⟨by omega, ?_, ?_, addArg_queue queue _, rfl, rfl, rfl, rfl, rfl⟩
      · exact (c.addArg (c.unread.take count)).unread_skip (count + 2)
      · intro inside
        exact skip_inside (c := c.addArg (c.unread.take count)) inside
          (show count + 2 ≤ c.unread.length by omega)

theorem readBulk_blocked {count : ℕ} (read : ∀ c', c.readBulk count ≠ .done c') :
    c.unread.length < count + 2 := by
  unfold readBulk at read
  split at read
  · assumption
  · split at read
    · exact absurd rfl (read _)
    · exact absurd rfl (read _)

/-- What one round of the loop does when an argument is there. -/
structure Argument (peer : Peer) (c : QueryClient) (s : ParseState) (done : List ParsedCommand)
    (c' : QueryClient) : Prop where
  inside : c'.qbPos ≤ c'.querybuf.length
  readReploff : c'.readReploff = c.readReploff
  errors : c'.errors = c.errors
  last : s.left = 1 → ∃ argv pos,
    Leads (wireParser peer) s c.unread [(argv, pos)] ⟨pos, 0, none, []⟩ c'.unread ∧ s.pos < pos ∧
      argv ≠ [] ∧ c'.vecqueuedcmd = done ++ [⟨argv, argv.length, 0⟩]
  more : s.left ≠ 1 → ∃ s', Leads (wireParser peer) s c.unread [] s' c'.unread ∧ c'.Reads s' done ∧
    s'.left + 1 = s.left ∧ s.pos ≤ s'.pos

theorem readBulks_round (peer : Peer) (reads : c.Reads s done) (busy : s.left ≠ 0) (left : ℕ) :
    (∃ c', c.readBulks peer (left + 1) = (false, c') ∧ Stops peer c s done c') ∨
      ∃ c', c.readBulks peer (left + 1) = c'.readBulks peer left ∧ Argument peer c s done c' := by
  rw [readBulks]
  cases header : c.readBulkLen peer with
  | blocked =>
      exact .inl ⟨c, rfl, stops_of_wait reads (readBulkLen_blocked reads busy header)⟩
  | failed reason => exact .inl ⟨_, rfl, stops_of_error reads reason⟩
  | done c₁ =>
      obtain ⟨s₁, count, leads, reads₁, left₁, pos₁, bulk₁, offset₁, errors₁⟩ :=
        readBulkLen_done reads busy header
      have busy₁ : s₁.left ≠ 0 := left₁ ▸ busy
      have known : c₁.bulklen.getD 0 = count := by
        rw [reads₁.bulk, bulk₁]
        rfl
      obtain ⟨queue, kind⟩ := reads₁.busy busy₁
      have argument : s₁.next peer c₁.unread = s₁.argument count c₁.unread := by
        rw [ParseState.next, if_neg busy₁, bulk₁]
      simp only [known]
      cases body : c₁.readBulk count with
      | done c' =>
          obtain ⟨whole, rest, inside, queued, remaining, bulk, kind', offset, errors⟩ :=
            readBulk_done queue body
          rw [ParseState.argument, if_neg (by omega)] at argument
          refine .inr ⟨c', rfl, inside reads₁.inside, offset.trans offset₁, errors.trans errors₁,
            ?_, ?_⟩
          · intro one
            rw [if_pos (left₁.trans one)] at argument
            refine ⟨s₁.argv ++ [c₁.unread.take count], s₁.pos + (count + 2), ?_, ?_, ?_, ?_⟩
            · rw [rest]
              exact leads.trans (Leads.single argument)
            · omega
            · exact List.append_ne_nil_of_right_ne_nil _ (List.cons_ne_nil _ _)
            · rw [queued, List.length_append, left₁, one]
              rfl
          · intro several
            rw [if_neg (left₁ ▸ several)] at argument
            refine ⟨⟨s₁.pos + (count + 2), s₁.left - 1, none, s₁.argv ++ [c₁.unread.take count]⟩,
              ?_, ?_, ?_, ?_⟩
            · rw [rest]
              exact leads.trans (Leads.single argument)
            · refine
                { inside := inside reads₁.inside
                  left := remaining.trans (by rw [reads₁.left])
                  bulk := bulk
                  idle := fun none_left => by simp only at none_left; omega
                  busy := fun _ => ⟨?_, kind'.trans kind⟩
                  typed := fun _ _ none_left => by simp only at none_left; omega }
              rw [queued]
              simp only [List.length_append, List.length_singleton]
              congr 3
              omega
            · simp only
              omega
            · simp only
              omega
      | _ =>
          have blocked : ∀ c', c₁.readBulk count ≠ .done c' := by
            intro c'
            rw [body]
            exact fun absurd => by cases absurd
          have short := readBulk_blocked blocked
          rw [ParseState.argument, if_pos short] at argument
          exact .inl ⟨c₁, rfl, s₁, leads, reads₁, offset₁, .inl ⟨errors₁, argument⟩⟩

/-- The loop reads the arguments of a request to the end or stops before it. -/
theorem readBulks_spec (peer : Peer) (left : ℕ) (reads : c.Reads s done)
    (remaining : s.left = left + 1) :
    Completes peer c s done (c.readBulks peer (left + 1)).2 ∧
        (c.readBulks peer (left + 1)).1 = true ∨
      Stops peer c s done (c.readBulks peer (left + 1)).2 ∧
        (c.readBulks peer (left + 1)).1 = false := by
  induction left generalizing c s with
  | zero =>
      rcases readBulks_round peer reads (by omega) 0 with
        ⟨c', result, stops⟩ | ⟨c', result, read⟩
      · rw [result]
        exact .inr ⟨stops, rfl⟩
      · rw [result]
        obtain ⟨argv, pos, leads, further, nonempty, queue⟩ := read.last (by omega)
        refine .inl ⟨⟨pos, [(argv, pos)], leads, further, queue, ?_, Nat.le_refl _, read.inside,
          read.readReploff, read.errors⟩, rfl⟩
        intro r member
        rw [List.mem_singleton.mp member]
        exact ⟨nonempty, rfl⟩
  | succ left ih =>
      rcases readBulks_round peer reads (by omega) (left + 1) with
        ⟨c', result, stops⟩ | ⟨c', result, read⟩
      · rw [result]
        exact .inr ⟨stops, rfl⟩
      · rw [result]
        obtain ⟨s', leads, reads', left', pos'⟩ := read.more (by omega)
        rcases ih reads' (by omega) with ⟨completes, ok⟩ | ⟨stops, ok⟩
        · obtain ⟨pos, out, others, further, queue, complete, single, inside, offset, errors⟩ :=
            completes
          exact .inl ⟨⟨pos, out, leads.trans others, by omega, queue, complete, single, inside,
            offset.trans read.readReploff, errors.trans read.errors⟩, ok⟩
        · obtain ⟨s'', others, reads'', offset, stopped⟩ := stops
          refine .inr ⟨⟨s'', leads.trans others, reads'', offset.trans read.readReploff, ?_⟩, ok⟩
          rw [← read.errors]
          exact stopped

/-- An attempt at a request: it is complete, or parsing stops. -/
def Attempts (peer : Peer) (c : QueryClient) (s : ParseState) (done : List ParsedCommand)
    (result : Bool × QueryClient) : Prop :=
  Completes peer c s done result.2 ∧ result.1 = true ∨
    Stops peer c s done result.2 ∧ result.1 = false

/-- The type of a request that has been begun is known; the first byte tells that of a new
one. -/
theorem Reads.withType (reads : c.Reads s done) (idle : s.left = 0) (more : c.unread ≠ [])
    (kind : ReqType) (agrees : kind = .multibulk ↔ c.unread.head? = some '*') :
    { c with reqtype := some kind }.Reads s done :=
  { inside := reads.inside
    left := reads.left
    bulk := reads.bulk
    idle := reads.idle
    busy := fun some_left => absurd idle some_left
    typed := fun other same _ => by
      cases same
      exact ⟨more, agrees⟩ }

theorem Reads.requestType_idle (reads : c.Reads s done) (idle : s.left = 0) :
    c.requestType = if c.unread.head? = some '*' then .multibulk else .inline := by
  unfold requestType
  cases kind : c.reqtype with
  | none => rfl
  | some kind' =>
      obtain ⟨_, agrees⟩ := reads.typed kind' kind idle
      cases kind' with
      | inline =>
          rw [if_neg fun asterisk => by cases agrees.mpr asterisk]
          rfl
      | multibulk =>
          rw [if_pos (agrees.mp rfl)]
          rfl

theorem processInlineBuffer_spec (reads : c.Reads s done) (idle : s.left = 0)
    (plain : c.unread.head? ≠ some '*') : Attempts peer c s done (c.processInlineBuffer peer) := by
  obtain ⟨_, _, queue⟩ := reads.idle idle
  have next : s.next peer c.unread = ParseState.onLine '\n' 1 c.unread (s.inlineRequest peer) := by
    rw [ParseState.next, if_pos idle, if_neg plain]
  unfold processInlineBuffer
  cases found : strchr '\n' c.unread with
  | none =>
      rw [ParseState.onLine, found] at next
      simp only
      split
      · exact .inr ⟨stops_of_error reads _, rfl⟩
      · exact .inr ⟨stops_of_wait reads next, rfl⟩
  | some newline =>
      have inside := strchr_lt found
      rw [ParseState.onLine, found] at next
      simp only [if_neg (show ¬ c.unread.length < newline + 1 by omega), ParseState.inlineRequest]
        at next
      simp only
      split
      · exact .inr ⟨stops_of_error reads _, rfl⟩
      · rename_i nothing
        rw [nothing] at next
        have leads := Leads.single (P := wireParser peer) next
        rw [← unread_skip] at leads
        refine .inl ⟨⟨s.pos + (newline + 1), [], leads, by omega, ?_, ?_, Nat.zero_le _,
          skip_inside reads.inside inside, rfl, rfl⟩, rfl⟩
        · rw [List.map_nil, List.append_nil]
          exact queue
        · intro r member
          cases member
      · rename_i argv some_args args
        rw [args] at next
        simp only [if_neg some_args] at next
        have leads := Leads.single (P := wireParser peer) next
        rw [← unread_skip] at leads
        refine .inl ⟨⟨s.pos + (newline + 1), [(argv, s.pos + (newline + 1))], leads, by omega, ?_,
          ?_, Nat.le_refl _, skip_inside reads.inside inside, rfl, rfl⟩, rfl⟩
        · show c.vecqueuedcmd ++ _ = _
          rw [queue]
          rfl
        · intro r member
          rw [List.mem_singleton.mp member]
          exact ⟨some_args, rfl⟩

theorem processMultibulkBuffer_spec (reads : c.Reads s done) (idle : s.left = 0)
    (kind : c.reqtype = some .multibulk) (asterisk : c.unread.head? = some '*') :
    Attempts peer c s done (c.processMultibulkBuffer peer) := by
  obtain ⟨bulk, _, queue⟩ := reads.idle idle
  have next : s.next peer c.unread =
      ParseState.onLine '\r' 2 c.unread (s.requestHeader peer) := by
    rw [ParseState.next, if_pos idle, if_pos asterisk]
  rw [processMultibulkBuffer, if_pos (reads.left.trans idle)]
  unfold readMultibulkLen
  cases found : strchr '\r' c.unread with
  | none =>
      rw [ParseState.onLine, found] at next
      simp only
      by_cases big : protoInlineMaxSize < c.unread.length
      · rw [if_pos big]
        exact .inr ⟨stops_of_error reads _, rfl⟩
      · rw [if_neg big]
        exact .inr ⟨stops_of_wait reads next, rfl⟩
  | some newline =>
      rw [ParseState.onLine, found] at next
      simp only at next ⊢
      by_cases short : c.unread.length < newline + 2
      · rw [if_pos short] at next ⊢
        exact .inr ⟨stops_of_wait reads next, rfl⟩
      · rw [if_neg short] at next ⊢
        rw [ParseState.requestHeader] at next
        cases valid : multibulkCount peer (c.unread.take newline) with
        | error reason => exact .inr ⟨stops_of_error reads _, rfl⟩
        | ok count =>
            rw [valid] at next
            have leads := Leads.single (P := wireParser peer) next
            rw [← unread_skip] at leads
            cases count with
            | zero =>
                simp only
                have none_left : (c.skip (newline + 2)).multibulklen = 0 := reads.left.trans idle
                rw [none_left]
                refine .inl ⟨⟨s.pos + (newline + 2), [], leads, by omega, ?_, ?_, Nat.zero_le _,
                  skip_inside reads.inside (by omega), rfl, rfl⟩, rfl⟩
                · rw [List.map_nil, List.append_nil]
                  exact queue
                · intro r member
                  cases member
            | succ count =>
                simp only
                have reads' : QueryClient.Reads { c.skip (newline + 2) with
                    multibulklen := count + 1
                    vecqueuedcmd := c.vecqueuedcmd ++ [⟨[], count + 1, 0⟩] }
                    ⟨s.pos + (newline + 2), count + 1, none, []⟩ done :=
                  { inside := skip_inside reads.inside (by omega)
                    left := rfl
                    bulk := reads.bulk.trans bulk
                    idle := fun none_left => by cases none_left
                    busy := fun _ => ⟨by rw [queue]; simp, kind⟩
                    typed := fun _ _ none_left => by cases none_left }
                rcases readBulks_spec peer count reads' rfl with
                  ⟨completes, ok⟩ | ⟨stops, ok⟩
                · obtain ⟨pos, out, others, further, queue, complete, single, inside, offset,
                    errors⟩ := completes
                  exact .inl ⟨⟨pos, out, leads.trans others, by simp only at further; omega, queue,
                    complete, single, inside, offset, errors⟩, ok⟩
                · obtain ⟨s', others, reads'', offset, stopped⟩ := stops
                  exact .inr ⟨⟨s', leads.trans others, reads'', offset, stopped⟩, ok⟩

/-- One turn of the parsing loop. -/
theorem parseOne_spec (peer : Peer) (reads : c.Reads s done) (more : c.unread ≠ []) :
    Attempts peer c s done (c.parseOne peer) := by
  unfold parseOne
  by_cases idle : s.left = 0
  · rw [reads.requestType_idle idle]
    by_cases asterisk : c.unread.head? = some '*'
    · rw [if_pos asterisk]
      exact processMultibulkBuffer_spec (reads.withType idle more _ (by simp [asterisk])) idle rfl
        asterisk
    · rw [if_neg asterisk]
      exact processInlineBuffer_spec (reads.withType idle more _ (by simp [asterisk])) idle asterisk
  · obtain ⟨_, kind⟩ := reads.busy idle
    have known : c.requestType = .multibulk := by
      rw [requestType, kind]
      rfl
    have same : { c with reqtype := some .multibulk } = c := by
      rw [← kind]
    rw [known]
    simp only [same]
    rw [processMultibulkBuffer, if_neg (reads.left ▸ idle), reads.left]
    obtain ⟨left, remaining⟩ := Nat.exists_eq_succ_of_ne_zero idle
    rw [remaining]
    exact readBulks_spec peer left reads remaining

end QueryClient

/-- The complete commands of a queue, each with the offset behind its request. The offset
that a command from a master carries lies there or behind requests without arguments that
follow, so before the end of the next command. -/
structure Tracked (peer : Peer) (base : ℤ) (pos : ℕ) (queue : List (ParsedCommand × ℕ)) : Prop where
  nonempty : ∀ q ∈ queue, q.1.argv ≠ []
  complete : ∀ q ∈ queue, q.1.argcMax = q.1.argv.length
  behind : peer.master = true → ∀ q ∈ queue, base + q.2 ≤ q.1.reploff
  bound : peer.master = true → ∀ q ∈ queue, q.1.reploff ≤ base + pos
  apart : peer.master = true → queue.Pairwise fun q r => q.1.reploff < base + r.2

def requests (queue : List (ParsedCommand × ℕ)) : List Request :=
  queue.map fun q => (q.1.argv, q.2)

section Tracked

variable {peer : Peer} {base : ℤ} {pos pos' : ℕ} {queue : List (ParsedCommand × ℕ)}

/-- The offset of a queue's last command. -/
def stampLast (peer : Peer) (offset : ℤ) (queue : List ParsedCommand) : List ParsedCommand :=
  if peer.master then queue.modifyLast fun cmd => { cmd with reploff := offset } else queue

theorem Tracked.mono (tracked : Tracked peer base pos queue) (further : pos ≤ pos') :
    Tracked peer base pos' queue :=
  { tracked with
    bound := fun master q member => (tracked.bound master q member).trans (by omega) }

/-- The last command is given the offset of the parser. -/
theorem Tracked.restamp {cmd : ParsedCommand} (last : ℕ) {offset : ℤ}
    (tracked : Tracked peer base pos queue)
    (before : ∀ q ∈ queue, peer.master = true → q.1.reploff < base + last)
    (nonempty : cmd.argv ≠ []) (complete : cmd.argcMax = cmd.argv.length)
    (reached : peer.master = true → last ≤ pos) (here : peer.master = true → offset = base + pos) :
    ∃ queue', stampLast peer offset (queue.map Prod.fst ++ [cmd]) = queue'.map Prod.fst ∧
      Tracked peer base pos queue' ∧ requests queue' = requests queue ++ [(cmd.argv, last)] := by
  by_cases master : peer.master = true
  · refine ⟨queue ++ [({ cmd with reploff := offset }, last)], ?_, ?_, ?_⟩
    · rw [stampLast, if_pos master, List.map_append]
      exact List.modifyLast_concat _ _ _
    · refine
        { nonempty := ?_
          complete := ?_
          behind := fun _ => ?_
          bound := fun _ => ?_
          apart := fun _ => ?_ }
      · intro q member
        rcases List.mem_append.mp member with old | new
        · exact tracked.nonempty q old
        · rw [List.mem_singleton.mp new]
          exact nonempty
      · intro q member
        rcases List.mem_append.mp member with old | new
        · exact tracked.complete q old
        · rw [List.mem_singleton.mp new]
          exact complete
      · intro q member
        rcases List.mem_append.mp member with old | new
        · exact tracked.behind master q old
        · rw [List.mem_singleton.mp new]
          have := reached master
          show base + last ≤ offset
          rw [here master]
          omega
      · intro q member
        rcases List.mem_append.mp member with old | new
        · exact tracked.bound master q old
        · rw [List.mem_singleton.mp new]
          exact (here master).le
      · refine List.pairwise_append.mpr ⟨tracked.apart master, List.pairwise_singleton _ _, ?_⟩
        intro q old r new
        rw [List.mem_singleton.mp new]
        exact before q old master
    · rw [requests, List.map_append]
      rfl
  · refine ⟨queue ++ [(cmd, last)], ?_, ?_, ?_⟩
    · rw [stampLast, if_neg master, List.map_append]
      rfl
    · refine
        { nonempty := ?_
          complete := ?_
          behind := fun yes => absurd yes master
          bound := fun yes => absurd yes master
          apart := fun yes => absurd yes master }
      · intro q member
        rcases List.mem_append.mp member with old | new
        · exact tracked.nonempty q old
        · rw [List.mem_singleton.mp new]
          exact nonempty
      · intro q member
        rcases List.mem_append.mp member with old | new
        · exact tracked.complete q old
        · rw [List.mem_singleton.mp new]
          exact complete
    · rw [requests, List.map_append]
      rfl

/-- A request is complete: what it puts out joins the queue, and the last command of the
queue gets the offset. -/
theorem Tracked.finish {out : List Request} {offset : ℤ} (tracked : Tracked peer base pos queue)
    (further : pos < pos') (complete : ∀ r ∈ out, r.1 ≠ [] ∧ r.2 = pos') (single : out.length ≤ 1)
    (here : peer.master = true → offset = base + pos') :
    ∃ queue', stampLast peer offset
        (queue.map Prod.fst ++ out.map (fun r => ⟨r.1, r.1.length, 0⟩)) = queue'.map Prod.fst ∧
      Tracked peer base pos' queue' ∧ requests queue' = requests queue ++ out := by
  match out, single with
  | [], _ =>
      rw [List.map_nil, List.append_nil, List.append_nil]
      rcases List.eq_nil_or_concat' queue with rfl | ⟨earlier, ⟨cmd, last⟩, rfl⟩
      · refine ⟨[], ?_, ⟨by simp, by simp, by simp, by simp, by simp⟩, rfl⟩
        unfold stampLast
        split <;> rfl
      · have member : (cmd, last) ∈ earlier ++ [(cmd, last)] :=
          List.mem_append_right _ (List.mem_singleton_self _)
        have kept : Tracked peer base pos' earlier :=
          { nonempty := fun q old => tracked.nonempty q (List.mem_append_left _ old)
            complete := fun q old => tracked.complete q (List.mem_append_left _ old)
            behind := fun master q old => tracked.behind master q (List.mem_append_left _ old)
            bound := fun master q old =>
              (tracked.bound master q (List.mem_append_left _ old)).trans (by omega)
            apart := fun master => (List.pairwise_append.mp (tracked.apart master)).1 }
        obtain ⟨queue', stamped, result, same⟩ := kept.restamp last
          (fun q old master => (List.pairwise_append.mp (tracked.apart master)).2.2 q old _
            (List.mem_singleton_self _))
          (tracked.nonempty _ member) (tracked.complete _ member) (fun master => by
            have lower := tracked.behind master _ member
            have upper := tracked.bound master _ member
            simp only at lower upper
            omega) here
        refine ⟨queue', ?_, result, ?_⟩
        · rw [← stamped, List.map_append]
          rfl
        · rw [same, requests, requests, List.map_append]
          rfl
  | [(argv, last)], _ =>
      obtain ⟨nonempty, same⟩ := complete _ (List.mem_singleton_self _)
      simp only at same nonempty
      subst same
      exact (tracked.mono further.le).restamp _ (fun q member master =>
        (tracked.bound master q member).trans_lt (by omega)) nonempty rfl
        (fun _ => Nat.le_refl _) here

end Tracked

theorem ParseState.next_nil (peer : Peer) (s : ParseState) : s.next peer [] = .wait := by
  unfold ParseState.next
  split
  · rfl
  · split
    · rfl
    · exact if_pos (Nat.zero_lt_succ _)

namespace QueryClient

variable {peer : Peer} {base : ℤ} {c c' : QueryClient} {s : ParseState}
  {queue : List (ParsedCommand × ℕ)}

/-- The client has parsed the stream up to `s`, and has got to the offset `base` and the
length of what it was sent. -/
structure Stands (peer : Peer) (base : ℤ) (c : QueryClient) (s : ParseState)
    (queue : List (ParsedCommand × ℕ)) : Prop where
  reads : c.Reads s (queue.map Prod.fst)
  tracked : Tracked peer base s.pos queue
  offset : peer.master = true → c.readReploff = base + s.pos + c.unread.length

theorem finishRequest_queue (nonempty : ∀ cmd ∈ c.vecqueuedcmd, cmd.argv ≠ []) :
    (c.finishRequest peer).vecqueuedcmd =
      stampLast peer (c.readReploff - c.querybuf.length + c.qbPos) c.vecqueuedcmd := by
  simp only [finishRequest, stampLast]
  cases last : c.vecqueuedcmd.getLast? with
  | none =>
      have empty := List.getLast?_eq_none_iff.mp last
      simp only [empty]
      by_cases master : peer.master = true
      · rw [if_pos master]
        rfl
      · rw [if_neg master]
  | some cmd =>
      simp only [if_neg (nonempty cmd (List.mem_of_getLast? last))]

/-- After a complete request the client is between two requests again. -/
theorem Stands.finish (stands : c.Stands peer base s queue)
    (completes : Completes peer c s (queue.map Prod.fst) c') :
    ∃ (pos : ℕ) (out : List Request) (queue' : List (ParsedCommand × ℕ)),
      Leads (wireParser peer) s c.unread out ⟨pos, 0, none, []⟩ (c'.finishRequest peer).unread ∧
        s.pos < pos ∧ (c'.finishRequest peer).Stands peer base ⟨pos, 0, none, []⟩ queue' ∧
        requests queue' = requests queue ++ out ∧
        (c'.finishRequest peer).errors = c.errors := by
  obtain ⟨pos, out, leads, further, queued, complete, single, inside, offset, errors⟩ := completes
  have same : (c'.finishRequest peer).unread = c'.unread := rfl
  have moved := pos_of_leads leads
  simp only at moved
  have length := c'.length_unread
  have here : peer.master = true → c'.readReploff - c'.querybuf.length + c'.qbPos = base + pos := by
    intro master
    have := stands.offset master
    omega
  obtain ⟨queue', stamped, tracked, put⟩ := stands.tracked.finish further complete single here
  have nonempty : ∀ cmd ∈ c'.vecqueuedcmd, cmd.argv ≠ [] := by
    intro cmd member
    rw [queued] at member
    rcases List.mem_append.mp member with old | new
    · obtain ⟨q, known, rfl⟩ := List.mem_map.mp old
      exact stands.tracked.nonempty q known
    · obtain ⟨r, known, rfl⟩ := List.mem_map.mp new
      exact (complete r known).1
  have result : (c'.finishRequest peer).vecqueuedcmd = queue'.map Prod.fst := by
    rw [finishRequest_queue nonempty, queued, stamped]
  refine ⟨pos, out, queue', leads, further, ⟨?_, tracked, ?_⟩, put, errors⟩
  · exact
      { inside := inside
        left := rfl
        bulk := rfl
        idle := fun _ => ⟨rfl, rfl, result⟩
        busy := fun some_left => absurd rfl some_left
        typed := fun _ unknown => by cases unknown }
  · intro master
    have := stands.offset master
    show c'.readReploff = base + pos + c'.unread.length
    omega

/-- The parsing loop makes the steps of the wire format until the parser waits for more
bytes or there is an error. -/
theorem parseLoop_spec (turns : ℕ) (stands : c.Stands peer base s queue)
    (enough : c.unread.length ≤ turns) :
    ∃ (s' : ParseState) (out : List Request) (queue' : List (ParsedCommand × ℕ)),
      Leads (wireParser peer) s c.unread out s' (c.parseLoop peer turns).unread ∧
        (c.parseLoop peer turns).Stands peer base s' queue' ∧
        requests queue' = requests queue ++ out ∧
        ((c.parseLoop peer turns).errors = c.errors ∧
            s'.next peer (c.parseLoop peer turns).unread = .wait ∨
          ∃ reason, (c.parseLoop peer turns).errors = c.errors ++ [reason]) := by
  induction turns generalizing c s queue with
  | zero =>
      have empty : c.unread = [] := List.eq_nil_of_length_eq_zero (by omega)
      refine ⟨s, [], queue, .refl _ _, stands, (List.append_nil _).symm, .inl ⟨rfl, ?_⟩⟩
      show s.next peer c.unread = .wait
      rw [empty, ParseState.next_nil]
  | succ turns ih =>
      rw [parseLoop]
      by_cases empty : c.unread = []
      · rw [if_pos empty]
        refine ⟨s, [], queue, .refl _ _, stands, (List.append_nil _).symm, .inl ⟨rfl, ?_⟩⟩
        rw [empty, ParseState.next_nil]
      · rw [if_neg empty]
        have attempt := parseOne_spec peer stands.reads empty
        cases result : c.parseOne peer with
        | mk ok c' =>
            rw [result] at attempt
            rcases attempt with ⟨completes, yes⟩ | ⟨stops, no⟩
            · simp only at yes completes
              subst yes
              obtain ⟨pos, out, queue', leads, further, stands', put, errors⟩ :=
                stands.finish completes
              have moved := pos_of_leads leads
              simp only at moved
              obtain ⟨s', out', queue'', others, stands'', put', stopped⟩ :=
                ih stands' (by omega)
              refine ⟨s', out ++ out', queue'', leads.trans others, stands'', ?_, ?_⟩
              · rw [put', put, List.append_assoc]
              · rw [← errors]
                exact stopped
            · simp only at no stops
              subst no
              show ∃ (s' : ParseState) (out : List Request) (queue' : List (ParsedCommand × ℕ)),
                Leads (wireParser peer) s c.unread out s' c'.unread ∧
                  c'.Stands peer base s' queue' ∧ requests queue' = requests queue ++ out ∧
                  (c'.errors = c.errors ∧ s'.next peer c'.unread = .wait ∨
                    ∃ reason, c'.errors = c.errors ++ [reason])
              obtain ⟨s', leads, reads, offset, stopped⟩ := stops
              have moved := pos_of_leads leads
              have further : s.pos ≤ s'.pos := by
                have := leads.length_le
                omega
              refine ⟨s', [], queue, leads, ⟨reads, stands.tracked.mono further, ?_⟩,
                (List.append_nil _).symm, stopped⟩
              intro master
              have := stands.offset master
              rw [offset]
              omega

/-- The same for `parseClientCommandBuffer`. -/
theorem parseClientCommandBuffer_spec (stands : c.Stands peer base s queue) :
    ∃ (s' : ParseState) (out : List Request) (queue' : List (ParsedCommand × ℕ)),
      Leads (wireParser peer) s c.unread out s' (c.parseClientCommandBuffer peer).unread ∧
        (c.parseClientCommandBuffer peer).Stands peer base s' queue' ∧
        requests queue' = requests queue ++ out ∧
        ((c.parseClientCommandBuffer peer).errors = c.errors ∧
            s'.next peer (c.parseClientCommandBuffer peer).unread = .wait ∨
          ∃ reason, (c.parseClientCommandBuffer peer).errors = c.errors ++ [reason]) := by
  obtain ⟨s', out, queue', leads, stands', put, stopped⟩ :=
    parseLoop_spec c.unread.length stands (Nat.le_refl _)
  have same : (c.parseClientCommandBuffer peer).unread =
      (c.parseLoop peer c.unread.length).unread := List.drop_zero
  refine ⟨s', out, queue', ?_, ⟨?_, stands'.tracked, ?_⟩, put, ?_⟩
  · rw [same]
    exact leads
  · exact
      { inside := Nat.zero_le _
        left := stands'.reads.left
        bulk := stands'.reads.bulk
        idle := stands'.reads.idle
        busy := stands'.reads.busy
        typed := by
          rw [same]
          exact stands'.reads.typed }
  · rw [same]
    exact stands'.offset
  · rw [same]
    exact stopped

end QueryClient

end KeyDB

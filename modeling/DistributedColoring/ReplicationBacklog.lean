import DistributedColoring.CText
import DistributedColoring.CircularWindow
import DistributedColoring.GuardedRun

set_option autoImplicit false

/- The replication backlog of a server. What it replicates goes into one circular buffer,
and every replica is sent its part of the stream straight from there. The buffer grows
when the slowest replica would otherwise lose what it has not been sent. -/
namespace KeyDB

open CText ByteMemory CircularWindow GuardedRun

/-- The buffer `repl_backlog` of `repl_backlog_size` bytes, where the next byte goes, how
many bytes it holds, the offset of the first of them and the offset that went to the
first cell. -/
structure Backlog where
  mem : Text
  idx : ℕ
  histlen : ℕ
  off : ℕ
  start : ℕ
  nonempty : 0 < mem.length
  inside : idx ≤ mem.length

namespace Backlog

abbrev size (b : Backlog) : ℕ := b.mem.length

theorem size_pos (b : Backlog) : 0 < b.size := b.nonempty

theorem idx_le (b : Backlog) : b.idx ≤ b.size := b.inside

def getReplIndexFromOffset (b : Backlog) (offset : ℕ) : ℕ := slot b.size b.start offset

/-- How much one `memcpy` of the feeding loop takes of `len` bytes. -/
def thislen (b : Backlog) (len : ℕ) : ℕ := min (b.size - b.idx) len

theorem room (b : Backlog) (p : Text) :
    b.idx + (p.take (b.thislen p.length)).length ≤ b.size := by
  have := b.idx_le
  rw [List.length_take, thislen]
  omega

/-- One round of the feeding loop. -/
def copy (b : Backlog) (p : Text) : Backlog where
  mem := write b.mem b.idx (p.take (b.thislen p.length))
  idx := if b.idx + b.thislen p.length = b.size then 0 else b.idx + b.thislen p.length
  histlen := b.histlen + b.thislen p.length
  off := b.off
  start := b.start
  nonempty := by
    rw [length_write (b.room p)]
    exact b.nonempty
  inside := by
    have := b.idx_le
    rw [length_write (b.room p)]
    show _ ≤ b.size
    rw [thislen]
    split <;> omega

theorem copy_size (b : Backlog) (p : Text) : (b.copy p).size = b.size := length_write (b.room p)

/-- The loop `while(len)`. A round that starts behind the last cell copies nothing and
goes back to the first one. -/
def fill (b : Backlog) (p : Text) : Backlog :=
  if p = [] then b else (b.copy p).fill (p.drop (b.thislen p.length))
termination_by 2 * p.length + if b.idx = b.size then 1 else 0
decreasing_by
  rename_i more
  have inside := b.idx_le
  have positive := b.size_pos
  have length : 0 < p.length := List.length_pos_iff.mpr more
  have moved : (b.copy p).idx ≠ (b.copy p).size := by
    rw [copy_size]
    show (if b.idx + b.thislen p.length = b.size then 0 else _) ≠ _
    split <;> omega
  rw [if_neg moved, List.length_drop]
  simp only [thislen]
  split <;> omega

end Backlog

/-- `CONFIG_REPL_BACKLOG_MIN_SIZE`. -/
def backlogMinSize : ℕ := 1024 * 16

/-- What `zmalloc` returns. Its bytes are never read before they are written. -/
def fresh (n : ℕ) : Text := List.replicate n (Char.ofNat 0)

theorem length_fresh (n : ℕ) : (fresh n).length = n := List.length_replicate

/-- A new buffer with the given bytes at its front, which is large enough for them. -/
def Backlog.holding (newsize : ℕ) (positive : 0 < newsize) (bytes : Text) (off start : ℕ) :
    Backlog where
  mem := write (fresh (max newsize bytes.length)) 0 bytes
  idx := bytes.length
  histlen := bytes.length
  off := off
  start := start
  nonempty := by
    rw [length_write (by rw [length_fresh]; omega), length_fresh]
    omega
  inside := by
    rw [length_write (by rw [length_fresh]; omega), length_fresh]
    omega

/-- The batch of writes that is under way. -/
structure Batch where
  offStart : ℕ
  idxStart : ℕ

/-- The index moves with the bytes. -/
def Batch.shift (batch : Batch) (size earliestIdx : ℕ) : Batch :=
  { batch with
    idxStart :=
      if earliestIdx ≤ batch.idxStart then batch.idxStart - earliestIdx
      else batch.idxStart + size - earliestIdx }

/-- A replica that is fed: it is waiting for its RDB file or online. `since` is the offset
its part of the stream begins at, `sent` what has been written to its connection. -/
structure Replica where
  online : Bool
  closeAsap : Bool
  since : ℕ
  replCurrOff : ℕ
  replEndOff : ℕ
  sent : Text
deriving DecidableEq

/-- The replication state of a server with a backlog. Nothing reads `fed`, all that the
backlog was ever fed. -/
structure Master where
  backlog : Backlog
  configSize : ℕ
  hardLimitBytes : ℕ
  masterReplOffset : ℕ
  batch : Option Batch
  lowestOff : Option ℕ
  slaves : List Replica
  fed : Text

/-- The least offset of a replica that is not about to be closed. -/
def lowestOpen (slaves : List Replica) : Option ℕ :=
  ((slaves.filter fun r => !r.closeAsap).map Replica.replCurrOff).min?

theorem lowestOpen_some {slaves : List Replica} {least : ℕ}
    (found : lowestOpen slaves = some least) :
    (∃ r ∈ slaves, r.closeAsap = false ∧ r.replCurrOff = least) ∧
      ∀ r ∈ slaves, r.closeAsap = false → least ≤ r.replCurrOff := by
  obtain ⟨member, lower⟩ := List.min?_eq_some_iff.mp found
  simp only [List.mem_map, List.mem_filter, Bool.not_eq_true'] at member lower
  refine ⟨?_, fun r inside opened => lower _ ⟨r, ⟨inside, opened⟩, rfl⟩⟩
  obtain ⟨r, ⟨inside, opened⟩, same⟩ := member
  exact ⟨r, inside, opened, same⟩

theorem lowestOpen_none {slaves : List Replica} (none_found : lowestOpen slaves = none) :
    ∀ r ∈ slaves, r.closeAsap ≠ false := by
  rw [lowestOpen, List.min?_eq_none_iff, List.map_eq_nil_iff, List.filter_eq_nil_iff] at none_found
  intro r inside opened
  exact none_found r inside (by rw [opened]; rfl)

namespace Master

/-- `createReplicationBacklog` on a server that has got to the end of `fed`. -/
def createReplicationBacklog (replBacklogSize hardLimitBytes : ℕ) (nonempty : 0 < replBacklogSize)
    (fed : Text) : Master where
  backlog := .holding replBacklogSize nonempty [] (fed.length + 1) fed.length
  configSize := replBacklogSize
  hardLimitBytes := hardLimitBytes
  masterReplOffset := fed.length
  batch := some ⟨fed.length, 0⟩
  lowestOff := none
  slaves := []
  fed := fed

/-- A hard limit of zero is none. -/
def Overflows (m : Master) (needed : ℕ) : Prop := 0 < m.hardLimitBytes ∧ m.hardLimitBytes < needed

instance (m : Master) (needed : ℕ) : Decidable (m.Overflows needed) := instDecidableAnd

/-- The bytes from the lowest offset on, as they lie in the buffer. -/
def active (b : Backlog) (earliest : ℕ) : Text :=
  let earliestIdx := b.getReplIndexFromOffset earliest
  if earliestIdx ≤ b.idx then read b.mem earliestIdx (b.idx - earliestIdx)
  else read b.mem earliestIdx (b.size - earliestIdx) ++ read b.mem 0 b.idx

/-- What no replica needs is dropped. The offset of the first byte is left as it was when
some replica is known. -/
def resizeReplicationBacklog (m : Master) (newsize : ℕ) : Option Master :=
  if m.backlog.size = max newsize backlogMinSize then some m
  else
    match m.lowestOff with
    | some earliest =>
        if m.masterReplOffset - earliest = (active m.backlog earliest).length then
          some { m with
            backlog := .holding (max newsize backlogMinSize) (lt_max_of_lt_right (by decide))
              (active m.backlog earliest) m.backlog.off earliest
            batch := m.batch.map fun batch =>
              batch.shift m.backlog.size (m.backlog.getReplIndexFromOffset earliest) }
        else none
    | none =>
        some { m with
          backlog := .holding (max newsize backlogMinSize) (lt_max_of_lt_right (by decide)) []
            (m.masterReplOffset + 1) m.masterReplOffset }

/-- Replicas too far behind for another `len` bytes are closed. -/
def closeSlow (m : Master) (len : ℕ) : List Replica :=
  m.slaves.map fun r =>
    if r.closeAsap = false ∧ m.Overflows (m.masterReplOffset + len + 1 - r.replCurrOff) then
      { r with closeAsap := true }
    else r

/-- The first half of `feedReplicationBacklog`: the bytes that replicas have not been sent
and `len` more have to fit, with a byte to spare. -/
def makeRoom (m : Master) (batch : Batch) (len : ℕ) : Option Master :=
  if m.masterReplOffset + len + 1 - m.lowestOff.getD batch.offStart ≤ m.backlog.size then some m
  else
    match lowestOpen (m.closeSlow len) with
    | none =>
        some { m with
          slaves := m.closeSlow len
          lowestOff := none
          batch := some { batch with offStart := m.masterReplOffset + len } }
    | some minOffset =>
        let minimumsize := m.masterReplOffset + len + 1 - minOffset
        let m' := { m with slaves := m.closeSlow len, lowestOff := some minOffset }
        if m.Overflows minimumsize then none
        else if m.backlog.size < minimumsize then
          m'.resizeReplicationBacklog (max (m.backlog.size * 2) minimumsize)
        else some m'

/-- The second half of `feedReplicationBacklog`. -/
def append (m : Master) (data : Text) : Master :=
  let filled := m.backlog.fill data
  { m with
    masterReplOffset := m.masterReplOffset + data.length
    backlog :=
      { filled with
        histlen := min filled.histlen filled.size
        off := m.masterReplOffset + data.length - min filled.histlen filled.size + 1 }
    fed := m.fed ++ data }

def feedReplicationBacklog (m : Master) (data : Text) : Option Master :=
  match m.batch with
  | some batch => (m.makeRoom batch data.length).map fun m' => m'.append data
  | none => some (m.append data)

/-- The replicas learn how far they may be written to. A batch that has overrun the buffer
closes them all. -/
def flushReplBacklogToClients (m : Master) : Option Master :=
  match m.batch with
  | none => some m
  | some batch =>
      if batch.offStart = m.masterReplOffset then some m
      else if m.masterReplOffset < batch.offStart then none
      else if m.backlog.size < m.masterReplOffset - batch.offStart then
        some { m with
          slaves := m.slaves.map fun r => { r with closeAsap := true }
          batch := some ⟨m.masterReplOffset, m.backlog.idx⟩
          lowestOff := none }
      else if batch.idxStart = m.backlog.idx then none
      else
        some { m with
          slaves := m.slaves.map fun r =>
            if r.closeAsap then r else { r with replEndOff := m.masterReplOffset }
          batch := some ⟨m.masterReplOffset, m.backlog.idx⟩
          lowestOff := lowestOpen m.slaves }

/-- What a connection takes of some bytes: it takes as many as it likes, or fails. -/
def connWrite (data : Text) : Option ℕ → Text
  | none => []
  | some n => data.take n

/-- The bytes one round of `writeToClient` hands over. The second piece is tried when all
of the first one was taken. -/
def written (b : Backlog) (r : Replica) (first second : Option ℕ) : Text :=
  let currIdx := b.getReplIndexFromOffset r.replCurrOff
  let endIdx := b.getReplIndexFromOffset r.replEndOff
  if currIdx ≤ endIdx then connWrite (read b.mem currIdx (endIdx - currIdx)) first
  else
    let taken := connWrite (read b.mem currIdx (b.size - currIdx)) first
    if taken.length = b.size - currIdx then taken ++ connWrite (read b.mem 0 endIdx) second
    else taken

/-- One round of the loop in `writeToClient`. -/
def writeRound (b : Backlog) (r : Replica) (first second : Option ℕ) : Replica :=
  if r.replCurrOff = r.replEndOff then r
  else
    { r with
      replCurrOff := r.replCurrOff + (written b r first second).length
      sent := r.sent ++ written b r first second }

/-- A write of the round failed: that ends the loop. -/
def Broken (b : Backlog) (r : Replica) (first second : Option ℕ) : Prop :=
  let currIdx := b.getReplIndexFromOffset r.replCurrOff
  first = none ∨ b.getReplIndexFromOffset r.replEndOff < currIdx ∧
    (connWrite (read b.mem currIdx (b.size - currIdx)) first).length = b.size - currIdx ∧
      second = none

instance (b : Backlog) (r : Replica) (first second : Option ℕ) :
    Decidable (Broken b r first second) :=
  inferInstanceAs (Decidable (_ ∨ _))

/-- The loop of `writeToClient`, with what the connection takes in each of its rounds. There is
no result where an assertion fails and where the loop goes on after all of these rounds. -/
def writeLoop (b : Backlog) (r : Replica) : List (Option ℕ × Option ℕ) → Option Replica
  | [] => if r.replCurrOff = r.replEndOff then some r else none
  | (first, second) :: rounds =>
      if r.replCurrOff = r.replEndOff then some r
      else if (writeRound b r first second).replCurrOff ≤ r.replEndOff then
        if Broken b r first second then some (writeRound b r first second)
        else writeLoop b (writeRound b r first second) rounds
      else none

def writeToClient (m : Master) (i : ℕ) (rounds : List (Option ℕ × Option ℕ)) : Option Master :=
  match m.slaves[i]? with
  | none => none
  | some r =>
      if r.online = true ∧ r.closeAsap = false then
        (writeLoop m.backlog r rounds).map fun r' => { m with slaves := m.slaves.set i r' }
      else none

/-- `replicationSetupSlaveForFullResync` with the offset the RDB file is made at. -/
def setupSlave (m : Master) (offset : ℕ) : Master :=
  { m with
    slaves := m.slaves ++ [⟨false, false, offset, offset, m.masterReplOffset, []⟩] }

/-- A new replica gets a new RDB file, or the one another replica is waiting for. -/
def attach (m : Master) : Option ℕ → Option Master
  | none => some (m.setupSlave m.masterReplOffset)
  | some i =>
      match m.slaves[i]? with
      | none => none
      | some r =>
          if r.online = false ∧ r.closeAsap = false then some (m.setupSlave r.since) else none

/-- `masterTryPartialResynchronization`, with `addReplyReplicationBacklog`. Without the
bytes that are asked for nothing is done here: a full resync follows. -/
def partialResync (m : Master) (offset : ℕ) : Master :=
  if offset < m.backlog.off ∨ m.backlog.off + m.backlog.histlen < offset then m
  else
    let curr := if m.backlog.histlen = 0 then m.masterReplOffset else offset - 1
    { m with slaves := m.slaves ++ [⟨true, false, curr, curr, m.masterReplOffset, []⟩] }

def trimReplicationBacklog (m : Master) : Option Master :=
  if m.batch.isSome then none
  else if m.backlog.size ≤ m.configSize then some m
  else
    match m.lowestOff with
    | none => m.resizeReplicationBacklog m.configSize
    | some lowest =>
        if 0 < lowest ∧ m.configSize < m.masterReplOffset - lowest + 1 then some m
        else m.resizeReplicationBacklog m.configSize

def modifySlave (m : Master) (i : ℕ) (change : Replica → Replica) : Option Master :=
  (m.slaves[i]?).map fun r => { m with slaves := m.slaves.set i (change r) }

end Master

/-- What can happen to the replication state. `beginBatch` and `endBatch` are the two ends
of `runAndPropogateToReplicas`. -/
inductive BacklogEvent where
  | beginBatch
  | feed (data : Text)
  | flush
  | endBatch
  | write (i : ℕ) (rounds : List (Option ℕ × Option ℕ))
  | attach (copied : Option ℕ)
  | online (i : ℕ)
  | close (i : ℕ)
  | partialResync (offset : ℕ)
  | trim
  | configSet (size : ℕ)

namespace Master

/-- A step is `none` where the code would abort or not come to an end. -/
def step (m : Master) : BacklogEvent → Option Master
  | .beginBatch =>
      match m.batch with
      | some _ => some m
      | none => some { m with batch := some ⟨m.masterReplOffset, m.backlog.idx⟩ }
  | .feed data => if m.batch.isSome then m.feedReplicationBacklog data else none
  | .flush => m.flushReplBacklogToClients
  | .endBatch => m.flushReplBacklogToClients.map fun m' => { m' with batch := none }
  | .write i rounds => m.writeToClient i rounds
  | .attach copied => m.attach copied
  | .online i => m.modifySlave i fun r => { r with online := true }
  | .close i => m.modifySlave i fun r => { r with closeAsap := true }
  | .partialResync offset => some (m.partialResync offset)
  | .trim => m.trimReplicationBacklog
  | .configSet size => ({ m with configSize := size }).resizeReplicationBacklog size

end Master

namespace Backlog

/-- The buffer holds the end of `fed`, and the next byte goes where it has to. -/
structure Mirrors (b : Backlog) (fed : Text) : Prop where
  begun : b.start + b.histlen ≤ fed.length
  place : b.idx = slot b.size b.start fed.length
  holds : Holds b.mem b.start fed (fed.length - min b.histlen b.size) fed.length

variable {b : Backlog} {fed : Text}

theorem Mirrors.copy (mirrors : b.Mirrors fed) (p : Text) :
    (b.copy p).Mirrors (fed ++ p.take (b.thislen p.length)) := by
  have length : (p.take (b.thislen p.length)).length = b.thislen p.length := by
    rw [List.length_take, thislen]
    omega
  have place := mirrors.place
  have begun := mirrors.begun
  have fits : b.thislen p.length ≤ b.size - b.idx := Nat.min_le_left _ _
  have bound := b.idx_le
  refine ⟨?_, ?_, ?_⟩
  · show b.start + (b.histlen + b.thislen p.length) ≤ _
    rw [List.length_append, length]
    omega
  · show (if b.idx + b.thislen p.length = b.size then 0 else b.idx + b.thislen p.length) = _
    rw [copy_size, List.length_append, length]
    show _ = slot b.size b.start (fed.length + b.thislen p.length)
    rw [slot_add (by omega), ← place]
    split
    · rename_i last
      rw [last, Nat.mod_self]
    · rw [Nat.mod_eq_of_lt (by omega)]
  · show Holds (write b.mem b.idx (p.take (b.thislen p.length))) b.start _
      (_ - min (b.histlen + b.thislen p.length) (b.copy p).size) _
    have held := mirrors.holds.write (p.take (b.thislen p.length)) (by omega) (by omega)
      (by rw [← place]; exact b.room p)
    rw [← place, length] at held
    rw [copy_size, List.length_append, length]
    have size : b.mem.length = b.size := rfl
    exact held.mono (by omega) (Nat.le_refl _)

theorem Mirrors.fill (mirrors : b.Mirrors fed) (p : Text) :
    (b.fill p).Mirrors (fed ++ p) ∧ (b.fill p).size = b.size ∧
      (b.fill p).histlen = b.histlen + p.length := by
  fun_induction b.fill p generalizing fed with
  | case1 b => simpa using mirrors
  | case2 b p more ih =>
      obtain ⟨filled, size, histlen⟩ := ih (mirrors.copy p)
      rw [List.append_assoc, List.take_append_drop] at filled
      refine ⟨filled, size.trans (b.copy_size p), histlen.trans ?_⟩
      show b.histlen + b.thislen p.length + _ = _
      rw [List.length_drop, thislen]
      omega

theorem holding_size {newsize : ℕ} (positive : 0 < newsize) (bytes : Text) (off start : ℕ)
    (room : bytes.length ≤ newsize) :
    (holding newsize positive bytes off start).size = newsize := by
  show (write (fresh (max newsize bytes.length)) 0 bytes).length = newsize
  rw [length_write (by rw [length_fresh]; omega), length_fresh]
  omega

/-- A new buffer that is given the end of the stream, and is not filled up by it. -/
theorem holding_mirrors {newsize : ℕ} (positive : 0 < newsize) (off : ℕ) {start : ℕ}
    (ordered : start ≤ fed.length) (room : fed.length - start < newsize) :
    (holding newsize positive (read fed start (fed.length - start)) off start).Mirrors fed := by
  have length : (read fed start (fed.length - start)).length = fed.length - start :=
    length_read (by omega)
  have size := holding_size positive (read fed start (fed.length - start)) off start (by omega)
  have large : (fresh (max newsize (read fed start (fed.length - start)).length)).length =
      newsize := by
    rw [length_fresh, length]
    omega
  refine ⟨?_, ?_, ?_⟩
  · show start + (read fed start (fed.length - start)).length ≤ fed.length
    omega
  · show (read fed start (fed.length - start)).length = slot _ start fed.length
    rw [size, length, slot, Nat.mod_eq_of_lt room]
  · rw [size]
    show Holds (write _ 0 (read fed start (fed.length - start))) start fed
      (fed.length - min (read fed start (fed.length - start)).length newsize) fed.length
    exact (Holds.move (by omega) ordered (Nat.le_refl _)).mono (by omega) (Nat.le_refl _)

end Backlog

/-- A replica has been sent its part of the stream up to its offset, and the buffer has
kept the rest for it. -/
structure Replica.Sound (r : Replica) (floor : ℕ) (fed : Text) : Prop where
  kept : floor ≤ r.replCurrOff
  since_le : r.since ≤ r.replCurrOff
  curr_le : r.replCurrOff ≤ r.replEndOff
  end_le : r.replEndOff ≤ fed.length
  waiting : r.online = false → r.replCurrOff = r.since
  sent : r.sent = read fed r.since (r.replCurrOff - r.since)

theorem Replica.Sound.mono {r : Replica} {floor floor' : ℕ} {fed : Text}
    (sound : r.Sound floor fed) (lower : floor' ≤ r.replCurrOff) (more : Text) :
    r.Sound floor' (fed ++ more) where
  kept := lower
  since_le := sound.since_le
  curr_le := sound.curr_le
  end_le := by
    have := sound.end_le
    rw [List.length_append]
    omega
  waiting := sound.waiting
  sent := by
    have := sound.since_le
    have := sound.curr_le
    have := sound.end_le
    rw [sound.sent, read_append_right more (by omega)]

/-- A replica that is sent the next bytes of the stream. -/
theorem Replica.Sound.send {r : Replica} {floor n : ℕ} {fed : Text} (replica : r.Sound floor fed)
    (more : n ≤ r.replEndOff - r.replCurrOff) (online : r.online = true) :
    Replica.Sound { r with
      replCurrOff := r.replCurrOff + n
      sent := r.sent ++ read fed r.replCurrOff n } floor fed := by
  have kept := replica.kept
  have since_le := replica.since_le
  have curr_le := replica.curr_le
  refine
    { kept := by show floor ≤ r.replCurrOff + n; omega
      since_le := by show r.since ≤ r.replCurrOff + n; omega
      curr_le := by show r.replCurrOff + n ≤ r.replEndOff; omega
      end_le := replica.end_le
      waiting := fun offline => by cases online.symm.trans offline
      sent := ?_ }
  show r.sent ++ read fed r.replCurrOff n = read fed r.since (r.replCurrOff + n - r.since)
  have split := read_append fed r.since (r.replCurrOff - r.since) n
  rw [Nat.add_sub_cancel' since_le, ← replica.sent] at split
  rw [split]
  congr 1
  omega

namespace Master

/-- The offset from which on the server keeps what it has fed. -/
def floor (m : Master) : ℕ :=
  m.lowestOff.getD ((m.batch.map Batch.offStart).getD m.masterReplOffset)

/-- The state in which `len` more bytes can be fed. -/
structure Ready (m : Master) (len : ℕ) : Prop where
  offset : m.masterReplOffset = m.fed.length
  mirrors : m.backlog.Mirrors m.fed
  full : m.backlog.histlen ≤ m.backlog.size
  advertised : m.backlog.off + m.backlog.histlen ≤ m.fed.length + 1
  batched : ∀ offStart ∈ m.batch.map Batch.offStart, offStart ≤ m.fed.length + len
  floor_le : m.floor ≤ m.fed.length + len
  hot : m.fed.length ≤ m.floor + m.backlog.histlen
  spare : m.fed.length + len < m.floor + m.backlog.size
  replicas : ∀ r ∈ m.slaves, r.closeAsap = false → r.Sound m.floor m.fed

abbrev Sound (m : Master) : Prop := m.Ready 0

section Steps

variable {m m' : Master}

theorem floor_of_known {earliest : ℕ} (known : m.lowestOff = some earliest) :
    m.floor = earliest := by
  rw [floor, known, Option.getD_some]

theorem floor_congr {other : Master} (lowest : other.lowestOff = m.lowestOff)
    (batch : other.batch.map Batch.offStart = m.batch.map Batch.offStart)
    (offset : other.masterReplOffset = m.masterReplOffset) : other.floor = m.floor := by
  rw [floor, floor, lowest, batch, offset]

/-- The bytes from a kept offset on lie between its cell and the next one to be written. -/
theorem Ready.active_eq {len : ℕ} (ready : m.Ready len) (earliest : ℕ)
    (kept : m.floor ≤ earliest) (le : earliest ≤ m.fed.length) :
    active m.backlog earliest = read m.fed earliest (m.fed.length - earliest) := by
  have begun := ready.mirrors.begun
  have full := ready.full
  have hot := ready.hot
  have spare := ready.spare
  have size : m.backlog.mem.length = m.backlog.size := rfl
  have held := ready.mirrors.holds.between (p := earliest) (q := m.fed.length) (by omega)
    (by omega) le (Nat.le_refl _) (Nat.le_refl _) (by omega)
  rw [← ready.mirrors.place] at held
  exact held

/-- Another buffer that holds as much of the stream as is needed. -/
theorem Sound.withBacklog (sound : m.Sound) {len : ℕ} {b : Backlog} {batch : Option Batch}
    (starts : batch.map Batch.offStart = m.batch.map Batch.offStart) (mirrors : b.Mirrors m.fed)
    (full : b.histlen ≤ b.size) (advertised : b.off + b.histlen ≤ m.fed.length + 1)
    (hot : m.fed.length ≤ m.floor + b.histlen) (spare : m.fed.length + len < m.floor + b.size) :
    Ready { m with backlog := b, batch := batch } len := by
  have floor : floor { m with backlog := b, batch := batch } = m.floor := floor_congr rfl starts rfl
  have floor_le := sound.floor_le
  refine
    { offset := sound.offset
      mirrors := mirrors
      full := full
      advertised := advertised
      batched := ?_
      floor_le := by rw [floor]; show _ ≤ m.fed.length + len; omega
      hot := by rw [floor]; exact hot
      spare := by rw [floor]; exact spare
      replicas := by rw [floor]; exact sound.replicas }
  intro offStart member
  rw [starts] at member
  exact (sound.batched offStart member).trans (Nat.le_add_right _ _)

/-- The assertions of the resize hold, and it leaves room for `len` more bytes. -/
theorem Sound.resize (sound : m.Sound) {newsize : ℕ} (len : ℕ)
    (settled : m.lowestOff = none → m.floor = m.fed.length)
    (roomy : m.fed.length + len < m.floor + max newsize backlogMinSize) :
    ∃ m', m.resizeReplicationBacklog newsize = some m' ∧ m'.Ready len ∧ m'.fed = m.fed ∧
      m'.batch.map Batch.offStart = m.batch.map Batch.offStart := by
  have offset := sound.offset
  have floor_le := sound.floor_le
  have advertised := sound.advertised
  have hot := sound.hot
  have positive : 0 < max newsize backlogMinSize := lt_max_of_lt_right (by decide)
  unfold resizeReplicationBacklog
  split
  · rename_i same
    exact ⟨m, rfl, sound.withBacklog rfl sound.mirrors sound.full advertised hot (by omega), rfl,
      rfl⟩
  · split
    · rename_i earliest known
      have floor := floor_of_known known
      have bytes := sound.active_eq earliest (by omega) (by omega)
      have length : (active m.backlog earliest).length = m.fed.length - earliest := by
        rw [bytes, length_read (by omega)]
      have size := Backlog.holding_size positive (active m.backlog earliest) m.backlog.off
        earliest (by omega)
      have histlen : (Backlog.holding (max newsize backlogMinSize) positive
          (active m.backlog earliest) m.backlog.off earliest).histlen = m.fed.length - earliest :=
        length
      have mirrors : (Backlog.holding (max newsize backlogMinSize) positive
          (active m.backlog earliest) m.backlog.off earliest).Mirrors m.fed := by
        rw [bytes]
        exact Backlog.holding_mirrors positive m.backlog.off (by omega) (by omega)
      have starts : (m.batch.map fun batch =>
          batch.shift m.backlog.size (m.backlog.getReplIndexFromOffset earliest)).map
            Batch.offStart = m.batch.map Batch.offStart := by
        cases m.batch <;> rfl
      rw [if_pos (by rw [length, offset])]
      refine ⟨_, rfl, sound.withBacklog starts mirrors (by omega) ?_ (by omega) (by omega), rfl,
        starts⟩
      show m.backlog.off + _ ≤ _
      omega
    · rename_i unknown
      have floor := settled unknown
      have size := Backlog.holding_size positive [] (m.masterReplOffset + 1) m.masterReplOffset
        (Nat.zero_le _)
      have mirrors : (Backlog.holding (max newsize backlogMinSize) positive []
          (m.masterReplOffset + 1) m.masterReplOffset).Mirrors m.fed := by
        have filled := Backlog.holding_mirrors positive (m.masterReplOffset + 1)
          (Nat.le_refl m.fed.length) (by omega)
        rwa [Nat.sub_self, read_zero, ← offset] at filled
      refine ⟨_, rfl, sound.withBacklog rfl mirrors (Nat.zero_le _) ?_ ?_ (by omega), rfl, rfl⟩
      · show m.masterReplOffset + 1 + 0 ≤ _
        omega
      · show _ ≤ m.floor + 0
        omega

theorem Sound.of_resize (sound : m.Sound) {newsize : ℕ}
    (settled : m.lowestOff = none → m.floor = m.fed.length)
    (roomy : m.fed.length < m.floor + max newsize backlogMinSize)
    (done : m.resizeReplicationBacklog newsize = some m') : m'.Sound := by
  obtain ⟨found, resized, ready, _⟩ := sound.resize 0 settled roomy
  cases resized.symm.trans done
  exact ready

theorem mem_closeSlow {len : ℕ} {r : Replica} (member : r ∈ m.closeSlow len)
    (opened : r.closeAsap = false) :
    r ∈ m.slaves ∧ ¬ m.Overflows (m.masterReplOffset + len + 1 - r.replCurrOff) := by
  obtain ⟨before, inside, same⟩ := List.mem_map.mp member
  split at same
  · subst same
    cases opened
  · rename_i fits
    subst same
    exact ⟨inside, fun behind => fits ⟨opened, behind⟩⟩

/-- The slowest replica left says from where on the stream is kept. -/
theorem Sound.closeSlow (sound : m.Sound) {len least : ℕ}
    (found : lowestOpen (m.closeSlow len) = some least) :
    Sound { m with slaves := m.closeSlow len, lowestOff := some least } ∧
      ¬ m.Overflows (m.masterReplOffset + len + 1 - least) := by
  obtain ⟨⟨slowest, member, opened, same⟩, lower⟩ := lowestOpen_some found
  obtain ⟨inside, fits⟩ := mem_closeSlow member opened
  rw [same] at fits
  have replica := sound.replicas slowest inside opened
  have kept := replica.kept
  have curr_le := replica.curr_le
  have end_le := replica.end_le
  have hot := sound.hot
  have spare := sound.spare
  refine ⟨?_, fits⟩
  refine
    { sound with
      floor_le := ?_
      hot := ?_
      spare := ?_
      replicas := ?_ }
  · show least ≤ m.fed.length + 0
    omega
  · show m.fed.length ≤ least + m.backlog.histlen
    omega
  · show m.fed.length + 0 < least + m.backlog.size
    omega
  · intro r member opened
    have before := sound.replicas r (mem_closeSlow member opened).1 opened
    exact { before with kept := lower r member opened }

/-- Room is made without failing an assertion. -/
theorem Sound.makeRoom (sound : m.Sound) {batch : Batch} (batched : m.batch = some batch)
    (len : ℕ) :
    ∃ m', m.makeRoom batch len = some m' ∧ m'.Ready len ∧ m'.fed = m.fed ∧
      m'.batch.isSome = true := by
  have offset := sound.offset
  have floor_le := sound.floor_le
  have within : batch.offStart ≤ m.fed.length :=
    sound.batched _ (by rw [batched]; rfl)
  unfold Master.makeRoom
  split
  · rename_i fits
    have floor : m.lowestOff.getD batch.offStart = m.floor := by
      rw [Master.floor, batched]
      rfl
    rw [floor, offset] at fits
    refine ⟨m, rfl, ?_, rfl, by rw [batched]; rfl⟩
    exact sound.withBacklog rfl sound.mirrors sound.full sound.advertised sound.hot (by omega)
  · split
    · rename_i alone
      refine ⟨_, rfl, ?_, rfl, rfl⟩
      refine
        { sound with
          batched := ?_
          floor_le := ?_
          hot := ?_
          spare := ?_
          replicas := fun r member opened => absurd opened (lowestOpen_none alone r member) }
      · rintro offStart ⟨⟩
        show m.masterReplOffset + len ≤ m.fed.length + len
        omega
      · show m.masterReplOffset + len ≤ m.fed.length + len
        omega
      · show m.fed.length ≤ m.masterReplOffset + len + m.backlog.histlen
        omega
      · show m.fed.length + len < m.masterReplOffset + len + m.backlog.size
        have := m.backlog.size_pos
        omega
    · rename_i least found
      obtain ⟨closed, fits⟩ := sound.closeSlow found
      simp only [if_neg fits]
      split
      · rename_i small
        have roomy : m.fed.length + len <
            least + max (max (m.backlog.size * 2) (m.masterReplOffset + len + 1 - least))
              backlogMinSize := by
          omega
        obtain ⟨m', resized, ready, fed, starts⟩ :=
          closed.resize len (fun unknown => by cases unknown) roomy
        refine ⟨m', resized, ready, fed, ?_⟩
        rw [← Option.isSome_map (f := Batch.offStart), starts, Option.isSome_map]
        show m.batch.isSome = true
        rw [batched]
        rfl
      · rename_i large
        refine ⟨_, rfl, ?_, rfl, by show m.batch.isSome = true; rw [batched]; rfl⟩
        refine closed.withBacklog rfl sound.mirrors sound.full sound.advertised closed.hot ?_
        have small : least ≤ m.fed.length := closed.floor_le
        show m.fed.length + len < least + m.backlog.size
        omega

theorem Ready.append {data : Text} (ready : m.Ready data.length) (batched : m.batch.isSome = true) :
    (m.append data).Sound := by
  obtain ⟨filled, size, histlen⟩ := ready.mirrors.fill data
  obtain ⟨batch, here⟩ := Option.isSome_iff_exists.mp batched
  have floor : (m.append data).floor = m.floor := by
    rw [Master.floor, Master.floor]
    show m.lowestOff.getD ((m.batch.map _).getD _) = _
    rw [here]
    rfl
  have offset := ready.offset
  have floor_le := ready.floor_le
  have hot := ready.hot
  have spare := ready.spare
  have full := ready.full
  have begun := ready.mirrors.begun
  have length : (m.append data).fed.length = m.fed.length + data.length := List.length_append
  have capped : (m.append data).backlog.histlen =
      min (m.backlog.histlen + data.length) m.backlog.size := by
    show min (m.backlog.fill data).histlen (m.backlog.fill data).size = _
    rw [histlen, size]
  have same : (m.append data).backlog.size = m.backlog.size := size
  refine
    { offset := ?_
      mirrors := ⟨?_, filled.place, ?_⟩
      full := by omega
      advertised := ?_
      batched := ?_
      floor_le := by omega
      hot := by omega
      spare := by omega
      replicas := ?_ }
  · rw [length]
    show m.masterReplOffset + data.length = _
    omega
  · have started := filled.begun
    rw [List.length_append] at started
    rw [capped, length]
    show (m.backlog.fill data).start + _ ≤ _
    omega
  · refine filled.holds.mono ?_ (Nat.le_refl _)
    rw [capped, same, length, List.length_append, histlen, size]
    omega
  · rw [capped, length]
    show m.masterReplOffset + data.length - min (m.backlog.fill data).histlen
      (m.backlog.fill data).size + 1 + _ ≤ _
    rw [histlen, size]
    omega
  · intro offStart member
    rw [length]
    exact ready.batched offStart member
  · intro r member opened
    rw [floor]
    exact (ready.replicas r member opened).mono (ready.replicas r member opened).kept data

/-- Feeding never fails an assertion. -/
theorem Sound.feed (sound : m.Sound) (batched : m.batch.isSome = true) (data : Text) :
    ∃ m', m.feedReplicationBacklog data = some m' ∧ m'.Sound ∧ m'.fed = m.fed ++ data := by
  obtain ⟨batch, here⟩ := Option.isSome_iff_exists.mp batched
  obtain ⟨m', made, ready, fed, still⟩ := sound.makeRoom here data.length
  refine ⟨m'.append data, ?_, ready.append still, ?_⟩
  · rw [feedReplicationBacklog, here]
    show (m.makeRoom batch data.length).map _ = _
    rw [made]
    rfl
  · show m'.fed ++ data = _
    rw [fed]

/-- A change that leaves the buffer alone and asks it to keep no more than before. -/
theorem Sound.advance (sound : m.Sound) (backlog : m'.backlog = m.backlog)
    (offset : m'.masterReplOffset = m.masterReplOffset) (fed : m'.fed = m.fed)
    (batched : ∀ offStart ∈ m'.batch.map Batch.offStart, offStart ≤ m.fed.length)
    (lower : m.floor ≤ m'.floor) (upper : m'.floor ≤ m.fed.length)
    (replicas : ∀ r ∈ m'.slaves, r.closeAsap = false → r.Sound m'.floor m.fed) : m'.Sound := by
  have hot := sound.hot
  have spare := sound.spare
  exact
    { offset := by rw [offset, fed, sound.offset]
      mirrors := by rw [backlog, fed]; exact sound.mirrors
      full := by rw [backlog]; exact sound.full
      advertised := by rw [backlog, fed]; exact sound.advertised
      batched := by rw [fed]; exact batched
      floor_le := by rw [fed]; exact upper
      hot := by rw [backlog, fed]; omega
      spare := by rw [backlog, fed]; omega
      replicas := by rw [fed]; exact replicas }

/-- The server goes on as before with other replicas. -/
theorem Sound.withSlaves (sound : m.Sound) {slaves : List Replica}
    (replicas : ∀ r ∈ slaves, r.closeAsap = false → r.Sound m.floor m.fed) :
    Sound { m with slaves := slaves } :=
  sound.advance rfl rfl rfl sound.batched (Nat.le_refl _) sound.floor_le replicas

/-- After a flush the batch has nothing in it. -/
theorem flushed_batch (done : m.flushReplBacklogToClients = some m') :
    (m'.batch.map Batch.offStart).getD m'.masterReplOffset = m'.masterReplOffset := by
  unfold flushReplBacklogToClients at done
  split at done
  · rename_i alone
    cases done
    rw [alone]
    rfl
  · rename_i batch here
    split at done
    · rename_i empty
      cases done
      rw [here]
      exact empty
    · split at done
      · cases done
      · split at done
        · cases done
          rfl
        · split at done
          · cases done
          · cases done
            rfl

theorem Sound.flush (sound : m.Sound) (done : m.flushReplBacklogToClients = some m') :
    m'.Sound := by
  have offset := sound.offset
  have floor_le := sound.floor_le
  unfold flushReplBacklogToClients at done
  split at done
  · cases done
    exact sound
  · split at done
    · cases done
      exact sound
    · split at done
      · cases done
      · split at done
        · cases done
          refine sound.advance rfl rfl rfl ?_ ?_ ?_ ?_
          · rintro offStart ⟨⟩
            exact offset.le
          · show m.floor ≤ m.masterReplOffset
            omega
          · exact offset.le
          · intro r member opened
            obtain ⟨before, _, rfl⟩ := List.mem_map.mp member
            cases opened
        · split at done
          · cases done
          · cases done
            have open_slave : ∀ r ∈ m.slaves.map (fun r =>
                if r.closeAsap then r else { r with replEndOff := m.masterReplOffset }),
                r.closeAsap = false → ∃ before ∈ m.slaves, before.closeAsap = false ∧
                  r = { before with replEndOff := m.masterReplOffset } := by
              intro r member opened
              obtain ⟨before, inside, rfl⟩ := List.mem_map.mp member
              split at opened
              · rename_i closed
                rw [closed] at opened
                cases opened
              · rename_i fine
                refine ⟨before, inside, by simpa using fine, ?_⟩
                rw [if_neg fine]
            cases found : lowestOpen m.slaves with
            | none =>
                refine sound.advance rfl rfl rfl ?_ ?_ ?_ ?_
                · rintro offStart ⟨⟩
                  exact offset.le
                · show m.floor ≤ m.masterReplOffset
                  omega
                · exact offset.le
                · intro r member opened
                  obtain ⟨before, inside, was, _⟩ := open_slave r member opened
                  exact absurd was (lowestOpen_none found before inside)
            | some least =>
                obtain ⟨⟨slowest, inside, opened, same⟩, lower⟩ := lowestOpen_some found
                have slow := sound.replicas slowest inside opened
                have kept := slow.kept
                have curr_le := slow.curr_le
                have end_le := slow.end_le
                refine sound.advance rfl rfl rfl ?_ ?_ ?_ ?_
                · rintro offStart ⟨⟩
                  exact offset.le
                · show m.floor ≤ least
                  omega
                · show least ≤ m.fed.length
                  omega
                · intro r member opened
                  obtain ⟨before, inside, was, rfl⟩ := open_slave r member opened
                  have replica := sound.replicas before inside was
                  refine
                    { replica with
                      kept := lower before inside was
                      curr_le := ?_
                      end_le := offset.le }
                  show before.replCurrOff ≤ m.masterReplOffset
                  exact replica.curr_le.trans (replica.end_le.trans offset.ge)

theorem connWrite_eq_take (data : Text) (accepted : Option ℕ) :
    ∃ n, connWrite data accepted = data.take n := by
  cases accepted with
  | none => exact ⟨0, rfl⟩
  | some n => exact ⟨n, rfl⟩

/-- What a connection takes is the beginning of what lies between the two cells. -/
theorem written_eq_take (b : Backlog) (r : Replica) (first second : Option ℕ) :
    ∃ n, written b r first second =
      (between b.mem (b.getReplIndexFromOffset r.replCurrOff)
        (b.getReplIndexFromOffset r.replEndOff)).take n := by
  have bound : b.getReplIndexFromOffset r.replCurrOff < b.size := slot_lt b.size_pos _ _
  have length : (read b.mem (b.getReplIndexFromOffset r.replCurrOff)
      (b.size - b.getReplIndexFromOffset r.replCurrOff)).length =
        b.size - b.getReplIndexFromOffset r.replCurrOff :=
    length_read (by show _ ≤ b.size; omega)
  simp only [written, between]
  by_cases straight : b.getReplIndexFromOffset r.replCurrOff ≤ b.getReplIndexFromOffset r.replEndOff
  · rw [if_pos straight, if_pos straight]
    exact connWrite_eq_take _ first
  · rw [if_neg straight, if_neg straight]
    obtain ⟨n, taken⟩ := connWrite_eq_take (read b.mem (b.getReplIndexFromOffset r.replCurrOff)
      (b.size - b.getReplIndexFromOffset r.replCurrOff)) first
    obtain ⟨n', taken'⟩ := connWrite_eq_take
      (read b.mem 0 (b.getReplIndexFromOffset r.replEndOff)) second
    rw [taken, taken', List.length_take, length]
    split
    · refine ⟨(read b.mem (b.getReplIndexFromOffset r.replCurrOff)
        (b.size - b.getReplIndexFromOffset r.replCurrOff)).length + n', ?_⟩
      rw [List.take_of_length_le (by rw [length]; omega)]
      exact (List.take_length_add_append n').symm
    · refine ⟨n, ?_⟩
      rw [List.take_append_of_le_length (by show _ ≤ (read _ _ (b.size - _)).length; omega)]

/-- A connection that takes everything is given all of it. -/
theorem written_all (b : Backlog) (r : Replica) :
    written b r (some b.size) (some b.size) =
      between b.mem (b.getReplIndexFromOffset r.replCurrOff)
        (b.getReplIndexFromOffset r.replEndOff) := by
  have curr : b.getReplIndexFromOffset r.replCurrOff < b.size := slot_lt b.size_pos _ _
  have last : b.getReplIndexFromOffset r.replEndOff < b.size := slot_lt b.size_pos _ _
  have whole : ∀ i n, i + n ≤ b.size → connWrite (read b.mem i n) (some b.size) = read b.mem i n :=
    fun i n fits => List.take_of_length_le (by rw [length_read fits]; omega)
  simp only [written, between]
  split
  · exact whole _ _ (by omega)
  · rw [whole _ _ (by omega), whole _ _ (by omega), length_read (by show _ ≤ b.size; omega),
      if_pos rfl]

section Written

variable {r : Replica} (sound : m.Sound) (replica : r.Sound m.floor m.fed)
include sound replica

theorem Sound.between_eq :
    between m.backlog.mem (m.backlog.getReplIndexFromOffset r.replCurrOff)
      (m.backlog.getReplIndexFromOffset r.replEndOff) =
        read m.fed r.replCurrOff (r.replEndOff - r.replCurrOff) := by
  have kept := replica.kept
  have curr_le := replica.curr_le
  have end_le := replica.end_le
  have begun := sound.mirrors.begun
  have full := sound.full
  have hot := sound.hot
  have spare := sound.spare
  have size : m.backlog.mem.length = m.backlog.size := rfl
  exact sound.mirrors.holds.between (by omega) (by omega) curr_le end_le (Nat.le_refl _) (by omega)

theorem Sound.written_eq (first second : Option ℕ) :
    ∃ n, n ≤ r.replEndOff - r.replCurrOff ∧
      written m.backlog r first second = read m.fed r.replCurrOff n := by
  obtain ⟨n, taken⟩ := written_eq_take m.backlog r first second
  rw [sound.between_eq replica] at taken
  refine ⟨min n (r.replEndOff - r.replCurrOff), Nat.min_le_right _ _, ?_⟩
  rw [taken]
  show ((m.fed.drop _).take _).take n = (m.fed.drop _).take _
  rw [List.take_take]

/-- A willing connection is sent all that the replica may be sent. -/
theorem Sound.writeRound_all (online : r.online = true) :
    writeRound m.backlog r (some m.backlog.size) (some m.backlog.size) =
      { r with
        replCurrOff := r.replEndOff
        sent := read m.fed r.since (r.replEndOff - r.since) } := by
  have since_le := replica.since_le
  have curr_le := replica.curr_le
  have end_le := replica.end_le
  have bytes := (written_all m.backlog r).trans (sound.between_eq replica)
  have next := replica.send (Nat.le_refl _) online
  unfold writeRound
  split
  · rename_i done
    have sent := replica.sent
    rw [done] at sent
    rw [← sent]
    exact congrArg (fun curr => { r with replCurrOff := curr }) done
  · have total : r.replCurrOff + (r.replEndOff - r.replCurrOff) = r.replEndOff := by omega
    rw [bytes, length_read (by omega), total]
    have sent := next.sent
    simp only [total] at sent
    rw [sent]

theorem Sound.writeRound (online : r.online = true) (first second : Option ℕ) :
    (writeRound m.backlog r first second).Sound m.floor m.fed := by
  unfold Master.writeRound
  split
  · exact replica
  · obtain ⟨n, more, bytes⟩ := sound.written_eq replica first second
    have length : (read m.fed r.replCurrOff n).length = n := by
      have := replica.end_le
      have := replica.curr_le
      exact length_read (by omega)
    rw [bytes, length]
    exact replica.send more online

end Written

theorem writeRound_online (b : Backlog) (r : Replica) (first second : Option ℕ) :
    (writeRound b r first second).online = r.online := by
  unfold writeRound
  split <;> rfl

theorem Sound.writeLoop (sound : m.Sound) {r r' : Replica} (replica : r.Sound m.floor m.fed)
    (online : r.online = true) {rounds : List (Option ℕ × Option ℕ)}
    (done : writeLoop m.backlog r rounds = some r') : r'.Sound m.floor m.fed := by
  induction rounds generalizing r with
  | nil =>
      obtain ⟨_, same⟩ := Option.ite_none_right_eq_some.mp done
      cases same
      exact replica
  | cons round rounds ih =>
      obtain ⟨first, second⟩ := round
      have next := sound.writeRound replica online first second
      unfold Master.writeLoop at done
      split at done
      · cases done
        exact replica
      · split at done
        · split at done
          · cases done
            exact next
          · exact ih next ((writeRound_online _ _ _ _).trans online) done
        · cases done

theorem Sound.write {i : ℕ} {rounds : List (Option ℕ × Option ℕ)} (sound : m.Sound)
    (done : m.writeToClient i rounds = some m') : m'.Sound := by
  unfold writeToClient at done
  split at done
  · cases done
  · rename_i r found
    split at done
    · rename_i ready
      obtain ⟨r', written, rfl⟩ := Option.map_eq_some_iff.mp done
      have replica := sound.replicas r (List.mem_of_getElem? found) ready.2
      refine sound.withSlaves ?_
      intro other member opened
      rcases List.mem_or_eq_of_mem_set member with old | rfl
      · exact sound.replicas other old opened
      · exact sound.writeLoop replica ready.1 written
    · cases done

/-- A connection that takes everything ends the loop after one round. -/
theorem writeLoop_willing {b : Backlog} {r : Replica}
    (all : (writeRound b r (some b.size) (some b.size)).replCurrOff = r.replEndOff) :
    writeLoop b r [(some b.size, some b.size)] =
      some (writeRound b r (some b.size) (some b.size)) := by
  have same : (writeRound b r (some b.size) (some b.size)).replEndOff = r.replEndOff := by
    unfold writeRound
    split <;> rfl
  unfold writeLoop
  split
  · rename_i done
    rw [writeRound, if_pos done]
  · rw [if_pos (by omega), if_neg (by simp [Broken]), writeLoop, if_pos (by omega)]

/-- A new replica whose part of the stream begins at a kept offset. -/
theorem Sound.newSlave (sound : m.Sound) {offset : ℕ} (online : Bool) (kept : m.floor ≤ offset)
    (le : offset ≤ m.fed.length) :
    Sound { m with
      slaves := m.slaves ++ [⟨online, false, offset, offset, m.masterReplOffset, []⟩] } := by
  refine sound.withSlaves ?_
  intro r member opened
  rcases List.mem_append.mp member with old | new
  · exact sound.replicas r old opened
  · rw [List.mem_singleton.mp new]
    exact
      { kept := kept
        since_le := Nat.le_refl _
        curr_le := le.trans sound.offset.ge
        end_le := sound.offset.le
        waiting := fun _ => rfl
        sent := by rw [Nat.sub_self, read_zero] }

theorem Sound.attach {copied : Option ℕ} (sound : m.Sound) (done : m.attach copied = some m') :
    m'.Sound := by
  cases copied with
  | none =>
      cases done
      exact sound.newSlave false (sound.floor_le.trans sound.offset.ge) sound.offset.le
  | some i =>
      simp only [Master.attach] at done
      split at done
      · cases done
      · rename_i r found
        split at done
        · rename_i waiting
          cases done
          have replica := sound.replicas r (List.mem_of_getElem? found) waiting.2
          have kept := replica.kept
          rw [replica.waiting waiting.1] at kept
          have le := replica.since_le.trans (replica.curr_le.trans replica.end_le)
          exact sound.newSlave false kept le
        · cases done

/-- A partial resync from a kept offset. -/
theorem Sound.partialResync {offset : ℕ} (sound : m.Sound) (kept : m.floor < offset) :
    (m.partialResync offset).Sound := by
  unfold Master.partialResync
  split
  · exact sound
  · have advertised := sound.advertised
    have floor_le := sound.floor_le
    have same := sound.offset
    simp only
    split
    · exact sound.newSlave true (by omega) (by omega)
    · exact sound.newSlave true (by omega) (by omega)

theorem Sound.modifySlave {i : ℕ} {change : Replica → Replica} (sound : m.Sound)
    (keeps : ∀ r : Replica, (change r).closeAsap = false →
      r.closeAsap = false ∧ (r.Sound m.floor m.fed → (change r).Sound m.floor m.fed))
    (done : m.modifySlave i change = some m') : m'.Sound := by
  obtain ⟨r, found, rfl⟩ := Option.map_eq_some_iff.mp done
  refine sound.withSlaves ?_
  intro other member opened
  rcases List.mem_or_eq_of_mem_set member with old | rfl
  · exact sound.replicas other old opened
  · obtain ⟨was, kept⟩ := keeps r opened
    exact kept (sound.replicas r (List.mem_of_getElem? found) was)

/-- Outside a batch the buffer can be given back what it has grown, unless a replica is
known to wait at offset zero. -/
theorem Sound.trim (sound : m.Sound)
    (origin : m.lowestOff = some 0 → m.masterReplOffset < max m.configSize backlogMinSize)
    (done : m.trimReplicationBacklog = some m') : m'.Sound := by
  have offset := sound.offset
  have floor_le := sound.floor_le
  unfold trimReplicationBacklog at done
  split at done
  · cases done
  · rename_i idle
    have alone : m.batch = none := Option.not_isSome_iff_eq_none.mp idle
    split at done
    · cases done
      exact sound
    · split at done
      · rename_i unknown
        have floor : m.floor = m.fed.length := by
          rw [Master.floor, unknown, alone, ← offset]
          rfl
        have large : 0 < max m.configSize backlogMinSize := lt_max_of_lt_right (by decide)
        exact sound.of_resize (fun _ => floor) (by omega) done
      · rename_i lowest known
        have floor := floor_of_known known
        split at done
        · cases done
          exact sound
        · rename_i small
          refine sound.of_resize (fun missing => by cases known.symm.trans missing) ?_ done
          by_cases first : lowest = 0
          · subst first
            have := origin known
            omega
          · omega

end Steps

/-- What has to be seen to from outside: a partial resync asks for no offset below the one
the server keeps the stream from, and a smaller buffer has room for what is kept, with a
byte to spare. -/
def Careful (m : Master) : BacklogEvent → Prop
  | .partialResync offset => m.floor < offset
  | .trim => m.lowestOff = some 0 → m.masterReplOffset < max m.configSize backlogMinSize
  | .configSet size =>
      m.masterReplOffset < m.floor + max size backlogMinSize ∧
        (m.lowestOff = none → m.floor = m.masterReplOffset)
  | _ => True

instance (m : Master) (event : BacklogEvent) : Decidable (m.Careful event) := by
  cases event <;> unfold Careful <;> infer_instance

theorem Sound.step {m m' : Master} {event : BacklogEvent} (sound : m.Sound)
    (careful : m.Careful event) (taken : m.step event = some m') : m'.Sound := by
  cases event with
  | beginBatch =>
      simp only [Master.step] at taken
      split at taken
      · cases taken
        exact sound
      · rename_i alone
        cases taken
        have same := sound.offset
        have floor : Master.floor { m with
            batch := some ⟨m.masterReplOffset, m.backlog.idx⟩ } = m.floor := by
          rw [Master.floor, Master.floor, alone]
          rfl
        refine sound.advance rfl rfl rfl ?_ floor.ge (floor ▸ sound.floor_le) ?_
        · rintro offStart ⟨⟩
          exact same.le
        · rw [floor]
          exact sound.replicas
  | feed data =>
      simp only [Master.step] at taken
      split at taken
      · rename_i batched
        obtain ⟨found, fed, kept, _⟩ := sound.feed batched data
        cases fed.symm.trans taken
        exact kept
      · cases taken
  | flush => exact sound.flush taken
  | endBatch =>
      obtain ⟨flushed, done, rfl⟩ := Option.map_eq_some_iff.mp taken
      have kept := sound.flush done
      have floor : Master.floor { flushed with batch := none } = flushed.floor := by
        rw [Master.floor, Master.floor, flushed_batch done]
        rfl
      refine kept.advance rfl rfl rfl ?_ floor.ge (floor ▸ kept.floor_le) ?_
      · rintro offStart ⟨⟩
      · rw [floor]
        exact kept.replicas
  | write i rounds => exact sound.write taken
  | attach copied => exact sound.attach taken
  | online i =>
      refine sound.modifySlave ?_ taken
      exact fun r opened => ⟨opened, fun replica =>
        { replica with waiting := fun offline => by cases offline }⟩
  | close i =>
      refine sound.modifySlave ?_ taken
      exact fun r opened => by cases opened
  | partialResync offset =>
      cases taken
      exact sound.partialResync careful
  | trim => exact sound.trim careful taken
  | configSet size =>
      have same := sound.offset
      have kept : Sound { m with configSize := size } :=
        sound.advance rfl rfl rfl sound.batched (Nat.le_refl _) sound.floor_le sound.replicas
      refine kept.of_resize (fun unknown => ?_) ?_ taken
      · exact (careful.2 unknown).trans same
      · show m.fed.length < m.floor + _
        have := careful.1
        omega

theorem create_sound (size limit : ℕ) (nonempty : 0 < size) (before : Text) :
    (createReplicationBacklog size limit nonempty before).Sound := by
  have mirrors := Backlog.holding_mirrors nonempty (before.length + 1)
    (Nat.le_refl before.length) (by omega)
  rw [Nat.sub_self, read_zero] at mirrors
  have large := Backlog.holding_size nonempty [] (before.length + 1) before.length (Nat.zero_le _)
  refine
    { offset := rfl
      mirrors := mirrors
      full := Nat.zero_le _
      advertised := Nat.le_refl _
      batched := ?_
      floor_le := Nat.le_refl _
      hot := Nat.le_refl _
      spare := ?_
      replicas := fun r member => by cases member }
  · rintro offStart ⟨⟩
    exact Nat.le_refl _
  · show before.length + 0 < before.length + (Backlog.holding size nonempty [] _ _).size
    omega

theorem sound_of_run {size limit : ℕ} {nonempty : 0 < size} {before : Text} {m : Master}
    (run : Run step Careful (createReplicationBacklog size limit nonempty before) m) : m.Sound :=
  run.invariant (create_sound size limit nonempty before)
    fun _ _ _ sound careful taken => sound.step careful taken

-- A partial resync from below the kept offset: what it asks for is overwritten unsent. The next
-- round would find nothing to send, and only the failure of the connection ends the loop.
example :
    (exec step (fun _ _ => True) (createReplicationBacklog 4 0 (by decide) [])
      [.feed "abc".toList, .flush, .partialResync 1, .feed "de".toList, .flush,
        .write 0 [(some 4, some 4), (none, none)]]).map (fun m => m.slaves.map Replica.sent) =
      some ["e".toList] := by decide +kernel

theorem slot_full_lag (b : Backlog) {offset : ℕ} (begun : b.start ≤ offset) :
    slot b.size b.start (offset + b.size) = slot b.size b.start offset := by
  rw [slot_add begun, Nat.add_mod_right, Nat.mod_eq_of_lt (slot_lt b.size_pos _ _)]

/-- A replica a whole buffer behind is at the cell it has to be sent up to, so that no
round sends it anything. -/
theorem writeRound_full_lag {b : Backlog} {r : Replica} (begun : b.start ≤ r.replCurrOff)
    (lag : r.replEndOff = r.replCurrOff + b.size) (first second : Option ℕ) :
    writeRound b r first second = r := by
  have same : b.getReplIndexFromOffset r.replEndOff = b.getReplIndexFromOffset r.replCurrOff := by
    rw [Backlog.getReplIndexFromOffset, Backlog.getReplIndexFromOffset, lag, slot_full_lag b begun]
  obtain ⟨n, nothing⟩ := written_eq_take b r first second
  rw [same, between, if_pos (Nat.le_refl _), Nat.sub_self, read_zero, List.take_nil] at nothing
  unfold writeRound
  split
  · rfl
  · rw [nothing, List.append_nil]
    rfl

/-- Then the loop goes on for ever, unless the connection fails. -/
theorem writeLoop_full_lag {b : Backlog} {r : Replica} (begun : b.start ≤ r.replCurrOff)
    (lag : r.replEndOff = r.replCurrOff + b.size) {rounds : List (Option ℕ × Option ℕ)}
    (unbroken : ∀ round ∈ rounds, round.1 ≠ none) : writeLoop b r rounds = none := by
  have positive := b.size_pos
  have apart : r.replCurrOff ≠ r.replEndOff := by omega
  have same : b.getReplIndexFromOffset r.replEndOff = b.getReplIndexFromOffset r.replCurrOff := by
    rw [Backlog.getReplIndexFromOffset, Backlog.getReplIndexFromOffset, lag, slot_full_lag b begun]
  induction rounds with
  | nil => exact if_neg apart
  | cons round rounds ih =>
      obtain ⟨first, second⟩ := round
      obtain ⟨here, later⟩ := List.forall_mem_cons.mp unbroken
      have whole : ¬ Broken b r first second := by simp [Broken, same, here]
      rw [writeLoop, if_neg apart, if_neg whole, writeRound_full_lag begun lag,
        if_pos (by omega)]
      exact ih later

end Master

end KeyDB

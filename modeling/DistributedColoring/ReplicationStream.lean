import DistributedColoring.ByteMemory
import DistributedColoring.QueryBuffer

set_option autoImplicit false

/- How a server writes commands to its replication stream. The text of a command is a
count and then its arguments with their lengths. An active replica wraps it in RREPLAY with
its uuid, the number of the database and a stamp, and it puts the text together by hand. -/
namespace KeyDB

open CText StreamParser

def crlf : Text := ['\r', '\n']

/-- A number as `ll2string` writes it into `room` bytes. -/
def longText (room : ℕ) (value : ℤ) : Text :=
  (ll2string (List.replicate room '\x00') value).getD []

/-- A mark, a number and the end of the line. -/
def lengthLine (room : ℕ) (mark : Char) (n : ℕ) : Text :=
  mark :: (longText room n ++ crlf)

/-- `buf` has 32 bytes, the first one for the mark. -/
def catAppendOnlyGenericCommand (dst : Text) (argv : List Text) : Text :=
  argv.foldl (fun dst arg => dst ++ lengthLine 31 '$' arg.length ++ arg ++ crlf)
    (dst ++ lengthLine 31 '*' argv.length)

/-- The conversion of a `long long` to `uint64_t`. -/
def toUnsigned (num : ℤ) : ℕ := (num % 2 ^ 64).toNat

/-- The conversion back. -/
def toSigned (n : ℕ) : ℤ := if n < 2 ^ 63 then n else n - 2 ^ 64

/-- What is written into `dst`, which has `cchdst` bytes. -/
def writeProtoNum (cchdst : ℕ) (num : ℤ) : Text :=
  if cchdst < 1 then []
  else
    let length := '$' :: longText (cchdst - 1) (digits10 (toUnsigned num))
    let line := length ++ crlf.take (min (cchdst - length.length) 2)
    let number := line ++ longText (cchdst - line.length) num
    -- The copy takes the NUL along, which is not counted.
    number ++ crlf.take (min (cchdst - number.length) 3)

def protoRREPLAY : Text :=
  "*5\r\n$7\r\nRREPLAY\r\n$36\r\n00000000-0000-0000-0000-000000000000\r\n$".toList

/-- `proto`: the uuid is copied over the zeros, and the length of the command is added. -/
def protoHeader (uuid : Text) (cchlen : ℕ) : Text :=
  let proto := ByteMemory.write protoRREPLAY 22 uuid
  proto ++ longText (1024 - protoRREPLAY.length) cchlen ++ crlf

/-- `shared.select` and what is written for other databases. -/
def selectCmd (dictid : ℤ) : Text :=
  "*2\r\n$6\r\nSELECT\r\n$".toList ++ decimal (longText longStrSize dictid).length ++ crlf ++
    longText longStrSize dictid ++ crlf

/-- The pieces that a command is fed in if it is not wrapped. `aux` has `LONG_STR_SIZE+3`
bytes, the first one for the mark. -/
def rawPieces (argv : List Text) : List Text :=
  lengthLine (longStrSize + 2) '*' argv.length ::
    argv.flatMap fun arg => [lengthLine (longStrSize + 2) '$' arg.length, arg, crlf]

/-- What a server keeps for its stream: the database selected in it and the latest stamp. -/
structure Feeder where
  fActiveReplica : Bool
  uuid : Text
  replicaseldb : ℤ
  mvccTstamp : ℕ

/-- A call of `replicationFeedSlavesCore` at a time. `argv` is what the translation of
expiry times leaves. -/
structure FeedCall where
  mstime : ℕ
  dictid : ℤ
  argv : List Text

/-- A PING may come before any operation, and then there is no database. -/
def FeedCall.db (call : FeedCall) : ℤ := if call.dictid < 0 then 0 else call.dictid

namespace Feeder

/-- The time in milliseconds is shifted by `MVCC_MS_SHIFT`. -/
def incrementMvccTstamp (f : Feeder) (mstime : ℕ) : Feeder :=
  { f with
    mvccTstamp :=
      if mstime ≤ f.mvccTstamp / 2 ^ 20 then (f.mvccTstamp + 1) % 2 ^ 64
      else mstime * 2 ^ 20 % 2 ^ 64 }

/-- The pieces fed to the backlog, in order. -/
def replicationFeedSlavesCore (f : Feeder) (call : FeedCall) : List Text × Feeder :=
  let selected := { f with replicaseldb := call.db }
  if f.fActiveReplica then
    let stamped := selected.incrementMvccTstamp call.mstime
    let buf := catAppendOnlyGenericCommand [] call.argv
    ([protoHeader f.uuid buf.length, buf, crlf, writeProtoNum 128 call.db,
      writeProtoNum 128 (toSigned stamped.mvccTstamp)], stamped)
  else
    ((if f.replicaseldb ≠ call.db then [selectCmd call.db] else []) ++ rawPieces call.argv,
      selected)

/-- The bytes that several calls feed. -/
def stream : Feeder → List FeedCall → Text
  | _, [] => []
  | f, call :: calls =>
      let (pieces, f) := f.replicationFeedSlavesCore call
      pieces.flatten ++ f.stream calls

end Feeder

section Format

/-- An argument with its length. -/
def bulk (arg : Text) : Text := '$' :: decimal arg.length ++ crlf ++ arg ++ crlf

/-- A command in the wire format. -/
def resp (argv : List Text) : Text := '*' :: decimal argv.length ++ crlf ++ argv.flatMap bulk

/-- The commands that can be sent: `processMultibulkBuffer` takes so many arguments, and
lengths are of type `long`. -/
structure Sendable (argv : List Text) : Prop where
  nonempty : argv ≠ []
  few : argv.length ≤ 1024 * 1024
  short : ∀ arg ∈ argv, arg.length < 2 ^ 63

variable {argv : List Text} {room n : ℕ} {value : ℤ}

theorem longText_eq (range : InLongLong value) (large : longStrSize ≤ room) :
    longText room value = decimal value := by
  have fits := (length_decimal_lt range).trans_le large
  rw [longText, ll2string_eq, List.length_replicate, if_pos fits]
  rfl

theorem inLongLong_of_lt (bound : n < 2 ^ 63) : InLongLong n := by
  constructor <;> omega

theorem lengthLine_eq (bound : n < 2 ^ 63) (large : longStrSize ≤ room) (mark : Char) :
    lengthLine room mark n = mark :: decimal n ++ crlf := by
  rw [lengthLine, longText_eq (inLongLong_of_lt bound) large]
  rfl

theorem catAppendOnlyGenericCommand_eq (sendable : Sendable argv) (dst : Text) :
    catAppendOnlyGenericCommand dst argv = dst ++ resp argv := by
  have fold : ∀ (args : List Text) (dst : Text), (∀ arg ∈ args, arg.length < 2 ^ 63) →
      args.foldl (fun dst arg => dst ++ lengthLine 31 '$' arg.length ++ arg ++ crlf) dst =
        dst ++ args.flatMap bulk := by
    intro args
    induction args with
    | nil => intro dst _; simp
    | cons arg args ih =>
        intro dst short
        rw [List.foldl_cons, ih _ fun other later => short other (List.mem_cons_of_mem _ later),
          lengthLine_eq (short arg List.mem_cons_self) (by decide), List.flatMap_cons, bulk]
        simp only [List.append_assoc]
  have few := sendable.few
  rw [catAppendOnlyGenericCommand, fold _ _ sendable.short,
    lengthLine_eq (by omega) (by decide), resp]
  simp only [List.append_assoc]

theorem rawPieces_eq (sendable : Sendable argv) : (rawPieces argv).flatten = resp argv := by
  have pieces : ∀ args : List Text, (∀ arg ∈ args, arg.length < 2 ^ 63) →
      (args.flatMap fun arg =>
        [lengthLine (longStrSize + 2) '$' arg.length, arg, crlf]).flatten = args.flatMap bulk := by
    intro args
    induction args with
    | nil => intro _; rfl
    | cons arg args ih =>
        intro short
        rw [List.flatMap_cons, List.flatten_append,
          ih fun other later => short other (List.mem_cons_of_mem _ later),
          lengthLine_eq (short arg List.mem_cons_self) (by decide), List.flatMap_cons, bulk]
        simp
  have few := sendable.few
  rw [rawPieces, List.flatten_cons, pieces _ sendable.short,
    lengthLine_eq (by omega) (by decide), resp]

theorem selectCmd_eq (range : InLongLong value) :
    selectCmd value = resp ["SELECT".toList, decimal value] := by
  have count : '*' :: decimal (2 : ℕ) ++ crlf = "*2\r\n".toList := by decide
  have name : bulk "SELECT".toList = "$6\r\nSELECT\r\n".toList := by decide
  have text : "*2\r\n$6\r\nSELECT\r\n$".toList =
      "*2\r\n".toList ++ "$6\r\nSELECT\r\n".toList ++ ['$'] := by decide
  have number := longText_eq range (Nat.le_refl longStrSize)
  unfold selectCmd
  rw [number, text, resp, List.flatMap_cons, List.flatMap_cons, List.flatMap_nil, name]
  show _ = '*' :: decimal (2 : ℕ) ++ crlf ++ _
  rw [count, bulk]
  simp only [List.append_assoc, List.append_nil, List.nil_append, List.cons_append]

/-- The number of digits is told before the number. -/
theorem writeProtoNum_eq (range : InLongLong value) (positive : 0 ≤ value) :
    writeProtoNum 128 value = bulk (decimal value) := by
  have unsigned : toUnsigned value = value.natAbs := by
    unfold toUnsigned
    obtain ⟨_, high⟩ := range
    rw [Int.emod_eq_of_lt positive (by omega)]
    omega
  have digits : digits10 (toUnsigned value) = (decimal value).length := by
    rw [unsigned, length_decimal, if_neg (by omega), Nat.add_zero]
  have short : (decimal value).length < 21 := length_decimal_lt range
  have small : InLongLong ((decimal value).length : ℕ) := inLongLong_of_lt (by omega)
  have shorter : (decimal ((decimal value).length : ℕ)).length < 21 := length_decimal_lt small
  unfold writeProtoNum
  rw [if_neg (by decide), digits, longText_eq small (by decide)]
  simp only [List.length_append, List.length_cons]
  rw [Nat.min_eq_right (by omega)]
  have both : crlf.take 2 = crlf := rfl
  have length : crlf.length = 2 := rfl
  rw [both, length, longText_eq range (by unfold longStrSize; omega), Nat.min_eq_right (by omega)]
  have all : crlf.take 3 = crlf := rfl
  rw [all, bulk]

theorem protoHeader_eq {uuid : Text} (length : uuid.length = 36) (bound : n < 2 ^ 63) :
    protoHeader uuid n =
      "*5\r\n".toList ++ bulk "RREPLAY".toList ++ bulk uuid ++ '$' :: decimal n ++ crlf := by
  have front : protoRREPLAY.take 22 = "*5\r\n".toList ++ bulk "RREPLAY".toList ++
      '$' :: decimal (36 : ℕ) ++ crlf := by decide
  have back : protoRREPLAY.drop (22 + 36) = crlf ++ ['$'] := by decide
  have room : longStrSize ≤ 1024 - protoRREPLAY.length := by decide
  unfold protoHeader ByteMemory.write
  rw [length, front, back, longText_eq (inLongLong_of_lt bound) room]
  rw [show bulk uuid = '$' :: decimal (36 : ℕ) ++ crlf ++ uuid ++ crlf by rw [bulk, length]]
  simp only [List.append_assoc, List.nil_append, List.cons_append]

/-- The text put together by hand is that of RREPLAY with its four arguments. -/
theorem rreplay_eq {uuid : Text} {db stamp : ℤ} (sendable : Sendable argv)
    (length : uuid.length = 36) (bound : (resp argv).length < 2 ^ 63) (inRange : InLongLong db)
    (natural : 0 ≤ db) (stampRange : InLongLong stamp) (positive : 0 ≤ stamp) :
    [protoHeader uuid (catAppendOnlyGenericCommand [] argv).length,
      catAppendOnlyGenericCommand [] argv, crlf, writeProtoNum 128 db,
      writeProtoNum 128 stamp].flatten =
        resp ["RREPLAY".toList, uuid, resp argv, decimal db, decimal stamp] := by
  have count : '*' :: decimal (5 : ℕ) ++ crlf = "*5\r\n".toList := by decide
  rw [catAppendOnlyGenericCommand_eq sendable, List.nil_append, protoHeader_eq length bound,
    writeProtoNum_eq inRange natural, writeProtoNum_eq stampRange positive, resp.eq_def (_ :: _)]
  show _ = '*' :: decimal (5 : ℕ) ++ crlf ++ _
  rw [count]
  simp only [List.flatMap_cons, List.flatMap_nil, List.flatten_cons, List.flatten_nil,
    List.append_assoc, List.append_nil]
  have command : bulk (resp argv) =
      '$' :: decimal (resp argv).length ++ crlf ++ resp argv ++ crlf := rfl
  rw [command]
  simp only [List.append_assoc, List.cons_append]

end Format

section Parse

variable {peer : Peer} {argv : List Text} {pos : ℕ}

/-- A line with a number is read up to its end. -/
theorem onLine_length {mark : Char} (apart : mark ≠ '\r' ∧ mark ≠ '\x00') (n : ℕ) (rest : Text)
    (verdict : Text → Char → ℕ → Parsing) :
    ParseState.onLine '\r' 2 (mark :: decimal n ++ crlf ++ rest) verdict =
      verdict (mark :: decimal n) mark (mark :: decimal n ++ crlf).length := by
  have clean : ∀ c ∈ mark :: decimal n, c ≠ '\r' ∧ c ≠ '\x00' := by
    intro c member
    rcases List.mem_cons.mp member with rfl | inside
    · exact apart
    · rcases mem_decimal inside with rfl | digit
      · decide
      · constructor <;> rintro rfl <;> cases digit
  have found : strchr '\r' (mark :: decimal n ++ crlf ++ rest) =
      some (mark :: decimal n).length := by
    rw [List.append_assoc]
    exact strchr_of_clean clean _
  have line : (mark :: decimal n ++ crlf ++ rest).take (mark :: decimal n).length =
      mark :: decimal n := by
    rw [List.append_assoc, List.take_left]
  have used : (mark :: decimal n ++ crlf).length = (mark :: decimal n).length + 2 :=
    List.length_append
  unfold ParseState.onLine
  simp only [found, line]
  rw [if_neg (by rw [List.length_append, used]; omega), ← used]
  rfl

theorem string2ll_decimal {n : ℕ} (bound : n < 2 ^ 63) : string2ll (decimal n) = some (n : ℤ) :=
  string2ll_eq_some.mpr ⟨inLongLong_of_lt bound, rfl⟩

/-- The line before a command. -/
def countLine (argv : List Text) : Text := '*' :: decimal argv.length ++ crlf

/-- The line before an argument. -/
def bulkLine (arg : Text) : Text := '$' :: decimal arg.length ++ crlf

theorem resp_append (argv : List Text) (rest : Text) :
    resp argv ++ rest = countLine argv ++ (argv.flatMap bulk ++ rest) := by
  rw [resp, countLine, List.append_assoc]

theorem bulk_append (arg rest : Text) :
    bulk arg ++ rest = bulkLine arg ++ (arg ++ crlf ++ rest) := by
  rw [bulk, bulkLine]
  simp only [List.append_assoc]

theorem length_resp (argv : List Text) :
    (resp argv).length = (countLine argv).length + (argv.flatMap bulk).length := by
  rw [resp, countLine, List.length_append]

theorem length_bulk (arg : Text) :
    (bulk arg).length = (bulkLine arg).length + (arg.length + 2) := by
  have ends : (arg ++ crlf).length = arg.length + 2 := List.length_append
  rw [bulk, bulkLine, List.append_assoc, List.length_append, ends]

section Master

variable (master : peer.master = true) (known : peer.authRequired = false)
include known

theorem next_countLine (few : argv.length ≤ 1024 * 1024) (pos : ℕ) (rest : Text) :
    (wireParser peer).next ⟨pos, 0, none, []⟩ (countLine argv ++ rest) =
      .step (countLine argv).length ⟨pos + (countLine argv).length, argv.length, none, []⟩ [] := by
  have bound : argv.length < 2 ^ 63 := by omega
  have count : multibulkCount peer ('*' :: decimal argv.length) = .ok argv.length := by
    have small : ¬ (1024 * 1024 : ℤ) < argv.length := by omega
    unfold multibulkCount
    simp only [List.drop_succ_cons, List.drop_zero, string2ll_decimal bound, if_neg small, known,
      Bool.false_eq_true, and_false, if_false, Int.toNat_natCast]
  have star : (countLine argv ++ rest).head? = some '*' := rfl
  rw [wireParser_next]
  unfold ParseState.next
  rw [if_pos rfl, if_pos star]
  exact (onLine_length (by decide) argv.length rest _).trans (by
    simp only [ParseState.requestHeader, count, countLine])

include master

theorem next_bulkLine {arg : Text} (short : arg.length < 2 ^ 63) (pos left : ℕ)
    (seen : List Text) (rest : Text) :
    (wireParser peer).next ⟨pos, left + 1, none, seen⟩ (bulkLine arg ++ rest) =
      .step (bulkLine arg).length
        ⟨pos + (bulkLine arg).length, left + 1, some arg.length, seen⟩ [] := by
  have count : bulkCount peer ('$' :: decimal arg.length) '$' = .ok arg.length := by
    have small : ¬ ((arg.length : ℤ) < 0 ∨
        peer.master = false ∧ peer.protoMaxBulkLen < arg.length) := by
      rw [master]
      simp
    unfold bulkCount
    simp only [ne_eq, not_true_eq_false, if_false, List.drop_succ_cons, List.drop_zero,
      string2ll_decimal short, if_neg small, known, Bool.false_eq_true, and_false,
      Int.toNat_natCast]
  rw [wireParser_next]
  unfold ParseState.next bulkLine
  rw [if_neg (Nat.succ_ne_zero left)]
  exact (onLine_length (by decide) arg.length rest _).trans (by
    simp only [ParseState.argumentHeader, count])

omit master known in
theorem next_argument (peer : Peer) (arg : Text) (pos left : ℕ) (seen : List Text) (rest : Text) :
    (wireParser peer).next ⟨pos, left + 1, some arg.length, seen⟩ (arg ++ crlf ++ rest) =
      .step (arg.length + 2)
        (if left = 0 then ⟨pos + (arg.length + 2), 0, none, []⟩
          else ⟨pos + (arg.length + 2), left, none, seen ++ [arg]⟩)
        (if left = 0 then [(seen ++ [arg], pos + (arg.length + 2))] else []) := by
  have taken : (arg ++ crlf ++ rest).take arg.length = arg := by
    rw [List.append_assoc, List.take_left]
  have enough : ¬ (arg ++ crlf ++ rest).length < arg.length + 2 := by
    rw [List.length_append, List.length_append]
    exact Nat.not_lt.mpr (Nat.le_add_right _ _)
  rw [wireParser_next]
  unfold ParseState.next
  rw [if_neg (Nat.succ_ne_zero left)]
  simp only [ParseState.argument, if_neg enough, taken]
  cases left with
  | zero => rfl
  | succ left => rfl

/-- An argument is read in two steps, and the last one completes the request. -/
theorem argument_leads {arg : Text} (short : arg.length < 2 ^ 63) (pos left : ℕ)
    (seen : List Text) (rest : Text) :
    Leads (wireParser peer) ⟨pos, left + 1, none, seen⟩ (bulk arg ++ rest)
      (if left = 0 then [(seen ++ [arg], pos + (bulk arg).length)] else [])
      (if left = 0 then ⟨pos + (bulk arg).length, 0, none, []⟩
        else ⟨pos + (bulk arg).length, left, none, seen ++ [arg]⟩) rest := by
  have second : (arg ++ crlf ++ rest).drop (arg.length + 2) = rest := by
    have ends : (arg ++ crlf).length = arg.length + 2 := List.length_append
    rw [← ends, List.drop_left]
  have header := Leads.single (next_bulkLine master known short pos left seen
    (arg ++ crlf ++ rest))
  have body := Leads.single (next_argument peer arg (pos + (bulkLine arg).length) left seen rest)
  rw [List.drop_left] at header
  rw [second, Nat.add_assoc, ← length_bulk] at body
  rw [bulk_append]
  exact header.trans body

theorem arguments_leads {args : List Text} (more : args ≠ [])
    (short : ∀ arg ∈ args, arg.length < 2 ^ 63) (pos : ℕ) (seen : List Text) (rest : Text) :
    Leads (wireParser peer) ⟨pos, args.length, none, seen⟩ (args.flatMap bulk ++ rest)
      [(seen ++ args, pos + (args.flatMap bulk).length)]
      ⟨pos + (args.flatMap bulk).length, 0, none, []⟩ rest := by
  induction args generalizing pos seen with
  | nil => exact absurd rfl more
  | cons arg args ih =>
      have here := argument_leads master known (short arg List.mem_cons_self) pos args.length seen
        (args.flatMap bulk ++ rest)
      rw [List.flatMap_cons, List.append_assoc, List.length_append, ← Nat.add_assoc]
      cases args with
      | nil => exact here
      | cons next args =>
          have others := ih (List.cons_ne_nil _ _)
            (fun other later => short other (List.mem_cons_of_mem _ later))
            (pos + (bulk arg).length) (seen ++ [arg])
          rw [List.append_assoc] at others
          exact here.trans others

/-- A command in the wire format is read as one request, whatever follows it. -/
theorem resp_leads (sendable : Sendable argv) (pos : ℕ) (rest : Text) :
    Leads (wireParser peer) ⟨pos, 0, none, []⟩ (resp argv ++ rest)
      [(argv, pos + (resp argv).length)] ⟨pos + (resp argv).length, 0, none, []⟩ rest := by
  have header := Leads.single (next_countLine known sendable.few pos (argv.flatMap bulk ++ rest))
  rw [List.drop_left] at header
  rw [resp_append, length_resp, ← Nat.add_assoc]
  exact header.trans (arguments_leads master known sendable.nonempty sendable.short _ [] rest)

/-- So is a sequence of commands. -/
theorem resps_leads {commands : List (List Text)} (sendable : ∀ argv ∈ commands, Sendable argv)
    (pos : ℕ) (rest : Text) :
    ∃ out, out.map Prod.fst = commands ∧
      Leads (wireParser peer) ⟨pos, 0, none, []⟩ (commands.flatMap resp ++ rest) out
        ⟨pos + (commands.flatMap resp).length, 0, none, []⟩ rest := by
  induction commands generalizing pos with
  | nil => exact ⟨[], rfl, .refl _ _⟩
  | cons argv commands ih =>
      have first := resp_leads master known (sendable argv List.mem_cons_self) pos
        (commands.flatMap resp ++ rest)
      obtain ⟨out, same, others⟩ := ih
        (fun other later => sendable other (List.mem_cons_of_mem _ later))
        (pos + (resp argv).length)
      refine ⟨[(argv, pos + (resp argv).length)] ++ out, ?_, ?_⟩
      · rw [List.map_append, same]
        rfl
      · rw [List.flatMap_cons, List.append_assoc, List.length_append, ← Nat.add_assoc]
        exact first.trans others

end Master

end Parse

namespace Feeder

variable {f : Feeder} {call : FeedCall} {calls : List FeedCall}

/-- The commands that one call writes. -/
def written (f : Feeder) (call : FeedCall) : List (List Text) :=
  if f.fActiveReplica then
    [["RREPLAY".toList, f.uuid, resp call.argv, decimal call.db,
      decimal (f.incrementMvccTstamp call.mstime).mvccTstamp]]
  else
    (if f.replicaseldb ≠ call.db then [["SELECT".toList, decimal call.db]] else []) ++ [call.argv]

/-- The commands that several calls write. -/
def commands : Feeder → List FeedCall → List (List Text)
  | _, [] => []
  | f, call :: calls => f.written call ++ (f.replicationFeedSlavesCore call).2.commands calls

/-- What can be fed for years to come: `early` holds while the shifted time is a `long long`,
and there are not that many commands. -/
structure CanFeed (f : Feeder) (calls : List FeedCall) : Prop where
  uuid : f.uuid.length = 36
  sendable : ∀ call ∈ calls, Sendable call.argv
  short : ∀ call ∈ calls, (resp call.argv).length < 2 ^ 63
  database : ∀ call ∈ calls, call.dictid < 2 ^ 31
  stamp : f.mvccTstamp + calls.length < 2 ^ 63
  early : ∀ call ∈ calls, call.mstime * 2 ^ 20 + calls.length < 2 ^ 63

/-- The stamps grow. -/
theorem stamp_lt (f : Feeder) (mstime : ℕ) (bound : f.mvccTstamp < 2 ^ 63)
    (early : mstime * 2 ^ 20 < 2 ^ 63) :
    f.mvccTstamp < (f.incrementMvccTstamp mstime).mvccTstamp ∧
      (f.incrementMvccTstamp mstime).mvccTstamp ≤ max (f.mvccTstamp + 1) (mstime * 2 ^ 20) := by
  show f.mvccTstamp < (if _ then _ else _) ∧ (if _ then _ else _) ≤ _
  split
  · rw [Nat.mod_eq_of_lt (by omega)]
    omega
  · rw [Nat.mod_eq_of_lt (by omega)]
    omega

theorem CanFeed.tail (fits : f.CanFeed (call :: calls)) :
    (f.replicationFeedSlavesCore call).2.CanFeed calls := by
  have stamp := fits.stamp
  have early := fits.early call List.mem_cons_self
  rw [List.length_cons] at stamp early
  have grows := stamp_lt f call.mstime (by omega) (Nat.lt_of_le_of_lt (Nat.le_add_right _ _) early)
  have moved : (f.replicationFeedSlavesCore call).2.uuid = f.uuid ∧
      (f.replicationFeedSlavesCore call).2.mvccTstamp ≤
        (f.incrementMvccTstamp call.mstime).mvccTstamp := by
    unfold replicationFeedSlavesCore
    simp only
    split
    · exact ⟨rfl, Nat.le_refl _⟩
    · exact ⟨rfl, grows.1.le⟩
  refine
    { uuid := (congrArg List.length moved.1).trans fits.uuid
      sendable := fun other later => fits.sendable other (List.mem_cons_of_mem _ later)
      short := fun other later => fits.short other (List.mem_cons_of_mem _ later)
      database := fun other later => fits.database other (List.mem_cons_of_mem _ later)
      stamp := ?_
      early := ?_ }
  · generalize call.mstime * 2 ^ 20 = shifted at early grows
    omega
  · intro other later
    have bound := fits.early other (List.mem_cons_of_mem _ later)
    rw [List.length_cons] at bound
    exact Nat.lt_of_succ_lt bound

theorem CanFeed.db_range (fits : f.CanFeed (call :: calls)) :
    0 ≤ call.db ∧ InLongLong call.db := by
  have bound := fits.database call List.mem_cons_self
  unfold FeedCall.db
  split
  · exact ⟨Int.le_refl _, by decide⟩
  · exact ⟨by omega, by omega, by omega⟩

theorem CanFeed.stamp_range (fits : f.CanFeed (call :: calls)) :
    f.mvccTstamp < (f.incrementMvccTstamp call.mstime).mvccTstamp ∧
      (f.incrementMvccTstamp call.mstime).mvccTstamp < 2 ^ 63 := by
  have stamp := fits.stamp
  have early := fits.early call List.mem_cons_self
  rw [List.length_cons] at stamp early
  have grows := stamp_lt f call.mstime (by omega) (Nat.lt_of_le_of_lt (Nat.le_add_right _ _) early)
  generalize call.mstime * 2 ^ 20 = shifted at early grows
  omega

/-- The pieces of a call are the text of the commands it writes. -/
theorem CanFeed.pieces_eq (fits : f.CanFeed (call :: calls)) :
    (f.replicationFeedSlavesCore call).1.flatten = (f.written call).flatMap resp := by
  have sendable := fits.sendable call List.mem_cons_self
  obtain ⟨natural, range⟩ := fits.db_range
  unfold replicationFeedSlavesCore written
  simp only
  by_cases active : f.fActiveReplica = true
  · have bound := fits.stamp_range.2
    have signed : toSigned (f.incrementMvccTstamp call.mstime).mvccTstamp =
        (f.incrementMvccTstamp call.mstime).mvccTstamp := if_pos bound
    rw [if_pos active, if_pos active, List.flatMap_singleton]
    show [_, _, _, _, writeProtoNum 128
      (toSigned (f.incrementMvccTstamp call.mstime).mvccTstamp)].flatten = _
    rw [signed]
    exact rreplay_eq sendable fits.uuid (fits.short call List.mem_cons_self) range natural
      (inLongLong_of_lt bound) (Int.natCast_nonneg _)
  · rw [if_neg active, if_neg active, List.flatten_append, List.flatMap_append,
      List.flatMap_singleton, rawPieces_eq sendable]
    split
    · rw [List.flatten_singleton, List.flatMap_singleton, selectCmd_eq range]
    · rfl

theorem CanFeed.written_sendable (fits : f.CanFeed (call :: calls)) :
    ∀ argv ∈ f.written call, Sendable argv := by
  have sendable := fits.sendable call List.mem_cons_self
  obtain ⟨_, range⟩ := fits.db_range
  have db : (decimal call.db).length < 2 ^ 63 := (length_decimal_lt range).trans (by decide)
  have stamp : (decimal (f.incrementMvccTstamp call.mstime).mvccTstamp).length < 2 ^ 63 :=
    (length_decimal_lt (inLongLong_of_lt fits.stamp_range.2)).trans (by decide)
  have short := fits.short call List.mem_cons_self
  have uuid := fits.uuid
  intro argv member
  unfold written at member
  by_cases active : f.fActiveReplica = true
  · rw [if_pos active, List.mem_singleton] at member
    subst member
    have five : 5 ≤ 1024 * 1024 := by decide
    refine ⟨List.cons_ne_nil _ _, five, ?_⟩
    intro arg inside
    simp only [List.mem_cons, List.not_mem_nil, or_false] at inside
    rcases inside with rfl | rfl | rfl | rfl | rfl
    · decide
    · omega
    · exact short
    · exact db
    · exact stamp
  · rw [if_neg active] at member
    rcases List.mem_append.mp member with select | own
    · split at select
      · rw [List.mem_singleton] at select
        subst select
        have two : 2 ≤ 1024 * 1024 := by decide
        refine ⟨List.cons_ne_nil _ _, two, ?_⟩
        intro arg inside
        simp only [List.mem_cons, List.not_mem_nil, or_false] at inside
        rcases inside with rfl | rfl
        · decide
        · exact db
      · cases select
    · rw [List.mem_singleton.mp own]
      exact sendable

theorem CanFeed.stream_eq (fits : f.CanFeed calls) :
    f.stream calls = (f.commands calls).flatMap resp := by
  induction calls generalizing f with
  | nil => rfl
  | cons call calls ih =>
      rw [commands, List.flatMap_append, ← fits.pieces_eq, ← ih fits.tail]
      rfl

theorem CanFeed.commands_sendable (fits : f.CanFeed calls) :
    ∀ argv ∈ f.commands calls, Sendable argv := by
  induction calls generalizing f with
  | nil => exact fun argv member => by cases member
  | cons call calls ih =>
      intro argv member
      rcases List.mem_append.mp member with here | later
      · exact fits.written_sendable argv here
      · exact ih fits.tail argv later

end Feeder

/-- The name of a command, in any case. -/
def Named (name : Text) (argv : List Text) : Prop :=
  argv.head?.map (List.map Char.toLower) = some name

instance (name : Text) (argv : List Text) : Decidable (Named name argv) :=
  inferInstanceAs (Decidable (_ = _))

/-- `selectCommand` in db.cpp: the database after it. -/
def selectCommand (dbnum : ℤ) (db : ℤ) (argv : List Text) : ℤ :=
  match string2ll (argv.getD 1 []) with
  | some id => if 0 ≤ id ∧ id < dbnum then id else db
  | none => db

/-- The commands that a replica executes from a stream, each with its database. -/
def inDatabases (dbnum : ℤ) (db : ℤ) : List (List Text) → List (ℤ × List Text)
  | [] => []
  | argv :: commands =>
      if Named "select".toList argv then
        inDatabases dbnum (selectCommand dbnum db argv) commands
      else (db, argv) :: inDatabases dbnum db commands

theorem inDatabases_mono {dbnum db : ℤ} {first all : List (List Text)} (begins : first <+: all) :
    inDatabases dbnum db first <+: inDatabases dbnum db all := by
  induction first generalizing db all with
  | nil => exact List.nil_prefix
  | cons argv first ih =>
      obtain ⟨rest, rfl⟩ := begins
      rw [List.cons_append, inDatabases, inDatabases]
      split
      · exact ih (List.prefix_append _ _)
      · exact List.prefix_cons_inj _ |>.mpr (ih (List.prefix_append _ _))

namespace Feeder

variable {f : Feeder} {calls : List FeedCall}

/-- A replica that executes the stream executes every command in its database. -/
theorem inDatabases_commands {dbnum : ℤ} (fits : f.CanFeed calls)
    (plain : f.fActiveReplica = false)
    (others : ∀ call ∈ calls, call.db < dbnum ∧ ¬ Named "select".toList call.argv) :
    inDatabases dbnum f.replicaseldb (f.commands calls) =
      calls.map fun call => (call.db, call.argv) := by
  induction calls generalizing f with
  | nil => rfl
  | cons call calls ih =>
      obtain ⟨natural, range⟩ := fits.db_range
      obtain ⟨bound, other⟩ := others call List.mem_cons_self
      have next := ih fits.tail (by simp [replicationFeedSlavesCore, plain])
        fun call later => others call (List.mem_cons_of_mem _ later)
      have selected : (f.replicationFeedSlavesCore call).2.replicaseldb = call.db := by
        simp [replicationFeedSlavesCore, plain]
      have own : inDatabases dbnum call.db
          (call.argv :: (f.replicationFeedSlavesCore call).2.commands calls) =
            (call :: calls).map fun call => (call.db, call.argv) := by
        rw [inDatabases, if_neg other, ← selected, next, selected]
        rfl
      have select : selectCommand dbnum f.replicaseldb ["SELECT".toList, decimal call.db] =
          call.db := by
        have text : string2ll (decimal call.db) = some call.db :=
          string2ll_eq_some.mpr ⟨range, rfl⟩
        simp [selectCommand, text, natural, bound]
      have named : Named "select".toList ["SELECT".toList, decimal call.db] := by
        have lower : "SELECT".toList.map Char.toLower = "select".toList := by decide
        rw [Named, List.head?_cons, Option.map_some, lower]
      rw [commands, written, if_neg (by simp [plain])]
      split
      · rw [List.append_assoc, List.singleton_append, List.singleton_append, inDatabases,
          if_pos named, select, own]
      · rename_i same
        rw [List.nil_append, List.singleton_append, not_not.mp same, own]

end Feeder

end KeyDB

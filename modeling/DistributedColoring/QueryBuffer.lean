import DistributedColoring.LongNumbers
import DistributedColoring.SplitArgs
import DistributedColoring.StreamParser
import Mathlib.Data.List.ModifyLast

set_option autoImplicit false

/- networking.cpp: how the bytes a client sends become commands. The query buffer may hold
any part of a command. What has been read of it is kept in the client until the rest
arrives. -/
namespace KeyDB

open CText StreamParser

/-- `PROTO_INLINE_MAX_SIZE`. -/
def protoInlineMaxSize : ℕ := 1024 * 64

/-- `PROTO_MBULK_BIG_ARG`. -/
def protoMbulkBigArg : ℕ := 1024 * 32

/-- The place of the first `target`. The text is a C string: it ends at its first NUL. -/
def strchr (target : Char) : Text → Option ℕ
  | [] => none
  | c :: s =>
      if c = target then some 0
      else if c = '\x00' then none
      else (strchr target s).map (· + 1)

inductive ProtocolError where
  | tooBigInline
  | unbalancedQuotes
  | masterInline
  | tooBigMbulkCount
  | invalidMbulkCount
  | unauthMbulkCount
  | tooBigBulkCount
  | expectedDollar (got : Char)
  | invalidBulkLength
  | unauthBulkLength
deriving DecidableEq

namespace ProtocolError

/-- What the client is told. A master is told nothing. -/
def reply : ProtocolError → Option Text
  | tooBigInline => some "Protocol error: too big inline request".toList
  | unbalancedQuotes => some "Protocol error: unbalanced quotes in request".toList
  | masterInline => none
  | tooBigMbulkCount => some "Protocol error: too big mbulk count string".toList
  | invalidMbulkCount => some "Protocol error: invalid multibulk length".toList
  | unauthMbulkCount => some "Protocol error: unauthenticated multibulk length".toList
  | tooBigBulkCount => some "Protocol error: too big bulk count string".toList
  | expectedDollar got =>
      some ("Protocol error: expected '$', got '".toList ++ [got] ++ "'".toList)
  | invalidBulkLength => some "Protocol error: invalid bulk length".toList
  | unauthBulkLength => some "Protocol error: unauthenticated bulk length".toList

/-- What the server writes to its log. -/
def log : ProtocolError → Text
  | tooBigInline => "too big inline request".toList
  | unbalancedQuotes => "unbalanced quotes in inline request".toList
  | masterInline => "Master using the inline protocol. Desync?".toList
  | tooBigMbulkCount => "too big mbulk count string".toList
  | invalidMbulkCount => "invalid mbulk count".toList
  | unauthMbulkCount => "unauth mbulk count".toList
  | tooBigBulkCount => "too big bulk count string".toList
  | expectedDollar _ => "expected $ but got something else".toList
  | invalidBulkLength => "invalid bulk length".toList
  | unauthBulkLength => "unauth bulk length".toList

end ProtocolError

/-- What the parser has to know of a client: whether it is a master, whether it still has
to authenticate, and `proto_max_bulk_len`. -/
structure Peer where
  master : Bool
  authRequired : Bool
  protoMaxBulkLen : ℤ

/-- A line of the inline protocol, without the line feed and a carriage return before it. -/
def stripCr (line : Text) : Text :=
  if line.getLast? = some '\r' then line.dropLast else line

def inlineArgs (peer : Peer) (line : Text) : Except ProtocolError (List Text) :=
  match sdssplitargs line with
  | none => .error .unbalancedQuotes
  | some argv => if line ≠ [] ∧ peer.master then .error .masterInline else .ok argv

/-- The number of arguments that the line of a multibulk announces. -/
def multibulkCount (peer : Peer) (line : Text) : Except ProtocolError ℕ :=
  match string2ll (line.drop 1) with
  | none => .error .invalidMbulkCount
  | some ll =>
      if 1024 * 1024 < ll then .error .invalidMbulkCount
      else if 10 < ll ∧ peer.authRequired then .error .unauthMbulkCount
      else .ok ll.toNat

/-- The length of an argument that its line announces. -/
def bulkCount (peer : Peer) (line : Text) (first : Char) : Except ProtocolError ℕ :=
  if first ≠ '$' then .error (.expectedDollar first)
  else
    match string2ll (line.drop 1) with
    | none => .error .invalidBulkLength
    | some ll =>
        if ll < 0 ∨ (peer.master = false ∧ peer.protoMaxBulkLen < ll) then
          .error .invalidBulkLength
        else if 16384 < ll ∧ peer.authRequired then .error .unauthBulkLength
        else .ok ll.toNat

/-- `parsed_command`; `argc` is the length of `argv`. -/
structure ParsedCommand where
  argv : List Text
  argcMax : ℕ
  reploff : ℤ
deriving DecidableEq

inductive ReqType where
  | inline
  | multibulk
deriving DecidableEq

/-- The part of `client` that has to do with its query buffer. A `bulklen` of -1 is `none`,
`errors` are the protocol errors, after the first of which the client is closed. -/
structure QueryClient where
  querybuf : Text
  qbPos : ℕ
  reqtype : Option ReqType
  multibulklen : ℕ
  bulklen : Option ℕ
  vecqueuedcmd : List ParsedCommand
  readReploff : ℤ
  errors : List ProtocolError

/-- What comes of an attempt to read on. -/
inductive Progress where
  | blocked
  | failed (reason : ProtocolError)
  | done (c : QueryClient)

namespace QueryClient

/-- The bytes from `qb_pos` on. -/
def unread (c : QueryClient) : Text := c.querybuf.drop c.qbPos

def setProtocolError (c : QueryClient) (reason : ProtocolError) : QueryClient :=
  { c with errors := c.errors ++ [reason] }

def skip (c : QueryClient) (n : ℕ) : QueryClient := { c with qbPos := c.qbPos + n }

/-- `cmd.argv[cmd.argc++]` of the last command. -/
def addArg (c : QueryClient) (arg : Text) : QueryClient :=
  { c with
    vecqueuedcmd := c.vecqueuedcmd.modifyLast fun cmd => { cmd with argv := cmd.argv ++ [arg] } }

def processInlineBuffer (peer : Peer) (c : QueryClient) : Bool × QueryClient :=
  match strchr '\n' c.unread with
  | none =>
      if protoInlineMaxSize < c.unread.length then (false, c.setProtocolError .tooBigInline)
      else (false, c)
  | some newline =>
      match inlineArgs peer (stripCr (c.unread.take newline)) with
      | .error reason => (false, c.setProtocolError reason)
      | .ok [] => (true, c.skip (newline + 1))
      | .ok argv =>
          (true, { c.skip (newline + 1) with
            vecqueuedcmd := c.vecqueuedcmd ++ [⟨argv, argv.length, 0⟩] })

/-- The first part of `processMultibulkBuffer`. -/
def readMultibulkLen (peer : Peer) (c : QueryClient) : Progress :=
  match strchr '\r' c.unread with
  | none =>
      if protoInlineMaxSize < c.unread.length then .failed .tooBigMbulkCount else .blocked
  | some newline =>
      if c.unread.length < newline + 2 then .blocked
      else
        match multibulkCount peer (c.unread.take newline) with
        | .error reason => .failed reason
        | .ok 0 => .done (c.skip (newline + 2))
        | .ok count =>
            .done { c.skip (newline + 2) with
              multibulklen := count
              vecqueuedcmd := c.vecqueuedcmd ++ [⟨[], count, 0⟩] }

/-- The buffer is cut where a large argument starts that it does not hold more than. -/
def alignBigArg (c : QueryClient) (count : ℕ) : QueryClient :=
  if protoMbulkBigArg ≤ count ∧ c.unread.length ≤ count + 2 then
    { c with querybuf := c.unread, qbPos := 0 }
  else c

/-- The length of an argument is read when it is not known yet. -/
def readBulkLen (peer : Peer) (c : QueryClient) : Progress :=
  match c.bulklen with
  | some _ => .done c
  | none =>
      match strchr '\r' c.unread with
      | none =>
          if protoInlineMaxSize < c.unread.length then .failed .tooBigBulkCount else .blocked
      | some newline =>
          if c.unread.length < newline + 2 then .blocked
          else
            match bulkCount peer (c.unread.take newline) (c.unread.headD '\x00') with
            | .error reason => .failed reason
            | .ok count =>
                .done { (c.skip (newline + 2)).alignBigArg count with bulklen := some count }

/-- An argument of `count` bytes and two more. A buffer that holds nothing else becomes the
argument itself. -/
def readBulk (c : QueryClient) (count : ℕ) : Progress :=
  if c.unread.length < count + 2 then .blocked
  else if c.qbPos = 0 ∧ protoMbulkBigArg ≤ count ∧ c.querybuf.length = count + 2 then
    .done { c.addArg (c.querybuf.take count) with
      querybuf := []
      bulklen := none
      multibulklen := c.multibulklen - 1 }
  else
    .done { (c.addArg (c.unread.take count)).skip (count + 2) with
      bulklen := none
      multibulklen := c.multibulklen - 1 }

/-- The loop of `processMultibulkBuffer`, with `multibulklen` arguments to go. -/
def readBulks (peer : Peer) : ℕ → QueryClient → Bool × QueryClient
  | 0, c => (true, c)
  | left + 1, c =>
      match c.readBulkLen peer with
      | .blocked => (false, c)
      | .failed reason => (false, c.setProtocolError reason)
      | .done c' =>
          match c'.readBulk (c'.bulklen.getD 0) with
          | .done c'' => readBulks peer left c''
          | _ => (false, c')

def processMultibulkBuffer (peer : Peer) (c : QueryClient) : Bool × QueryClient :=
  if c.multibulklen = 0 then
    match c.readMultibulkLen peer with
    | .blocked => (false, c)
    | .failed reason => (false, c.setProtocolError reason)
    | .done c' => c'.readBulks peer c'.multibulklen
  else c.readBulks peer c.multibulklen

/-- A request is of the multibulk kind when it starts with an asterisk. -/
def requestType (c : QueryClient) : ReqType :=
  c.reqtype.getD (if c.unread.head? = some '*' then .multibulk else .inline)

/-- What the parsing loop does before it knows that a request is complete. -/
def parseOne (peer : Peer) (c : QueryClient) : Bool × QueryClient :=
  match c.requestType with
  | .inline => { c with reqtype := some .inline }.processInlineBuffer peer
  | .multibulk => { c with reqtype := some .multibulk }.processMultibulkBuffer peer

/-- What it does afterwards: the last command in the queue, be it an earlier one, gets the
offset behind the request. -/
def finishRequest (peer : Peer) (c : QueryClient) : QueryClient :=
  { c with
    vecqueuedcmd :=
      match c.vecqueuedcmd.getLast? with
      | none => c.vecqueuedcmd
      | some cmd =>
          if cmd.argv = [] then c.vecqueuedcmd.dropLast
          else if peer.master then
            c.vecqueuedcmd.modifyLast fun cmd =>
              { cmd with reploff := c.readReploff - c.querybuf.length + c.qbPos }
          else c.vecqueuedcmd
    reqtype := none
    multibulklen := 0
    bulklen := none }

/-- The parsing loop. Every turn of it uses up bytes, so that as many turns as there are
unread bytes are enough. -/
def parseLoop (peer : Peer) : ℕ → QueryClient → QueryClient
  | 0, c => c
  | turns + 1, c =>
      if c.unread = [] then c
      else
        match c.parseOne peer with
        | (true, c') => parseLoop peer turns (c'.finishRequest peer)
        | (false, c') => c'

/-- `parseClientCommandBuffer` of a client that is ready. What has been read is cut off. -/
def parseClientCommandBuffer (peer : Peer) (c : QueryClient) : QueryClient :=
  let parsed := c.parseLoop peer c.unread.length
  { parsed with querybuf := parsed.unread, qbPos := 0 }

end QueryClient

section Strchr

variable {target : Char} {s : Text} {i : ℕ}

theorem strchr_lt (found : strchr target s = some i) : i < s.length := by
  induction s generalizing i with
  | nil => cases found
  | cons c s ih =>
      rw [strchr] at found
      split at found
      · cases found
        exact Nat.zero_lt_succ _
      · split at found
        · cases found
        · obtain ⟨j, later, rfl⟩ := Option.map_eq_some_iff.mp found
          exact Nat.succ_lt_succ (ih later)

theorem strchr_append (found : strchr target s = some i) (more : Text) :
    strchr target (s ++ more) = some i := by
  induction s generalizing i with
  | nil => cases found
  | cons c s ih =>
      rw [strchr] at found
      rw [List.cons_append, strchr]
      split at found
      · rename_i here
        rw [if_pos here, found]
      · rename_i apart
        rw [if_neg apart]
        split at found
        · cases found
        · rename_i dark
          obtain ⟨j, later, rfl⟩ := Option.map_eq_some_iff.mp found
          rw [if_neg dark, ih later]
          rfl

theorem strchr_of_clean (clean : ∀ c ∈ s, c ≠ target ∧ c ≠ '\x00') (rest : Text) :
    strchr target (s ++ target :: rest) = some s.length := by
  induction s with
  | nil => rw [List.nil_append, strchr, if_pos rfl, List.length_nil]
  | cons c s ih =>
      obtain ⟨apart, dark⟩ := clean c (List.mem_cons_self ..)
      rw [List.cons_append, strchr, if_neg apart, if_neg dark,
        ih fun d member => clean d (List.mem_cons_of_mem c member)]
      rfl

end Strchr

/-- Where the parser is in the stream: the offset, the arguments to come, the length of the
next one when it is known, and those read. Between two requests there are none to come. -/
structure ParseState where
  pos : ℕ
  left : ℕ
  bulk : Option ℕ
  argv : List Text

/-- A request that is complete, with the offset behind it. -/
abbrev Request := List Text × ℕ

abbrev Parsing := Outcome ParseState Request ProtocolError

namespace ParseState

def start : ParseState := ⟨0, 0, none, []⟩

/-- A decision that can be made when a line is there, with `extra` bytes from its end on. -/
def onLine (target : Char) (extra : ℕ) (input : Text) (verdict : Text → Char → ℕ → Parsing) :
    Parsing :=
  match strchr target input with
  | none => .wait
  | some newline =>
      if input.length < newline + extra then .wait
      else verdict (input.take newline) (input.headD '\x00') (newline + extra)

/-- A line of the inline protocol is a request. -/
def inlineRequest (peer : Peer) (s : ParseState) (line : Text) (_ : Char) (used : ℕ) : Parsing :=
  match inlineArgs peer (stripCr line) with
  | .error reason => .fail reason
  | .ok argv =>
      .step used ⟨s.pos + used, 0, none, []⟩ (if argv = [] then [] else [(argv, s.pos + used)])

def requestHeader (peer : Peer) (s : ParseState) (line : Text) (_ : Char) (used : ℕ) : Parsing :=
  match multibulkCount peer line with
  | .error reason => .fail reason
  | .ok count => .step used ⟨s.pos + used, count, none, []⟩ []

def argumentHeader (peer : Peer) (s : ParseState) (line : Text) (first : Char) (used : ℕ) :
    Parsing :=
  match bulkCount peer line first with
  | .error reason => .fail reason
  | .ok count => .step used { s with pos := s.pos + used, bulk := some count } []

def argument (s : ParseState) (count : ℕ) (input : Text) : Parsing :=
  if input.length < count + 2 then .wait
  else if s.left = 1 then
    .step (count + 2) ⟨s.pos + (count + 2), 0, none, []⟩
      [(s.argv ++ [input.take count], s.pos + (count + 2))]
  else
    .step (count + 2) ⟨s.pos + (count + 2), s.left - 1, none, s.argv ++ [input.take count]⟩ []

/-- The wire format, read step by step from the bytes that are left. -/
def next (peer : Peer) (s : ParseState) (input : Text) : Parsing :=
  if s.left = 0 then
    if input.head? = some '*' then onLine '\r' 2 input (s.requestHeader peer)
    else onLine '\n' 1 input (s.inlineRequest peer)
  else
    match s.bulk with
    | none => onLine '\r' 2 input (s.argumentHeader peer)
    | some count => s.argument count input

theorem onLine_stable {target : Char} {extra : ℕ} {input : Text}
    {verdict : Text → Char → ℕ → Parsing} (decided : onLine target extra input verdict ≠ .wait)
    (more : Text) :
    onLine target extra (input ++ more) verdict = onLine target extra input verdict := by
  unfold onLine at decided ⊢
  cases found : strchr target input with
  | none =>
      rw [found] at decided
      exact absurd rfl decided
  | some newline =>
      rw [found] at decided
      have inside := strchr_lt found
      have head : (input ++ more).headD '\x00' = input.headD '\x00' := by
        cases input with
        | nil => cases inside
        | cons c input => rfl
      rw [strchr_append found more]
      simp only at decided ⊢
      by_cases short : input.length < newline + extra
      · rw [if_pos short] at decided
        exact absurd rfl decided
      · rw [if_neg short, if_neg (by rw [List.length_append]; omega), head,
          List.take_append_of_le_length inside.le]

/-- A step on a line uses up the line, and counts what it uses up. -/
theorem onLine_step {target : Char} {extra n : ℕ} {input : Text} {s' : ParseState}
    {out : List Request} {verdict : Text → Char → ℕ → Parsing}
    (taken : onLine target extra input verdict = .step n s' out) :
    ∃ newline, newline + extra ≤ input.length ∧
      verdict (input.take newline) (input.headD '\x00') (newline + extra) = .step n s' out := by
  unfold onLine at taken
  split at taken
  · cases taken
  · rename_i newline _
    split at taken
    · cases taken
    · exact ⟨newline, by omega, taken⟩

/-- Every step uses up bytes that are there, and moves the offset on by as much. -/
theorem next_step {peer : Peer} {s s' : ParseState} {input : Text} {n : ℕ} {out : List Request}
    (taken : s.next peer input = .step n s' out) :
    0 < n ∧ n ≤ input.length ∧ s'.pos = s.pos + n := by
  unfold next at taken
  split at taken
  · split at taken
    · obtain ⟨newline, bound, step⟩ := onLine_step taken
      rw [requestHeader] at step
      split at step
      · cases step
      · cases step
        exact ⟨by omega, bound, rfl⟩
    · obtain ⟨newline, bound, step⟩ := onLine_step taken
      rw [inlineRequest] at step
      split at step
      · cases step
      · cases step
        exact ⟨by omega, bound, rfl⟩
  · split at taken
    · obtain ⟨newline, bound, step⟩ := onLine_step taken
      rw [argumentHeader] at step
      split at step
      · cases step
      · cases step
        exact ⟨by omega, bound, rfl⟩
    · rw [argument] at taken
      split at taken
      · cases taken
      · split at taken
        · cases taken
          exact ⟨by omega, by omega, rfl⟩
        · cases taken
          exact ⟨by omega, by omega, rfl⟩

/-- A request that is put out ends where the parser is. -/
theorem next_out {peer : Peer} {s s' : ParseState} {input : Text} {n : ℕ} {out : List Request}
    (taken : s.next peer input = .step n s' out) :
    out = [] ∨ ∃ argv, out = [(argv, s'.pos)] := by
  unfold next at taken
  split at taken
  · split at taken
    · obtain ⟨newline, _, step⟩ := onLine_step taken
      rw [requestHeader] at step
      split at step
      · cases step
      · cases step
        exact .inl rfl
    · obtain ⟨newline, _, step⟩ := onLine_step taken
      rw [inlineRequest] at step
      split at step
      · cases step
      · rename_i argv _
        cases step
        split
        · exact .inl rfl
        · exact .inr ⟨argv, rfl⟩
  · split at taken
    · obtain ⟨newline, _, step⟩ := onLine_step taken
      rw [argumentHeader] at step
      split at step
      · cases step
      · cases step
        exact .inl rfl
    · rw [argument] at taken
      split at taken
      · cases taken
      · split at taken
        · cases taken
          exact .inr ⟨_, rfl⟩
        · cases taken
          exact .inl rfl

theorem next_stable {peer : Peer} {s : ParseState} {input : Text}
    (decided : s.next peer input ≠ .wait) (more : Text) :
    s.next peer (input ++ more) = s.next peer input := by
  unfold next at decided ⊢
  split
  · rename_i idle
    rw [if_pos idle] at decided
    cases input with
    | nil => exact absurd rfl decided
    | cons c input =>
        have head : (c :: input ++ more).head? = (c :: input).head? := rfl
        rw [head]
        split
        · rename_i asterisk
          rw [if_pos asterisk] at decided
          exact onLine_stable decided more
        · rename_i plain
          rw [if_neg plain] at decided
          exact onLine_stable decided more
  · rename_i busy
    rw [if_neg busy] at decided
    cases bulk : s.bulk with
    | none =>
        rw [bulk] at decided
        exact onLine_stable decided more
    | some count =>
        rw [bulk] at decided
        simp only [argument] at decided ⊢
        by_cases short : input.length < count + 2
        · rw [if_pos short] at decided
          exact absurd rfl decided
        · rw [if_neg short, if_neg (by rw [List.length_append]; omega),
            List.take_append_of_le_length (by omega)]

end ParseState

/-- The wire format as a parser. -/
def wireParser (peer : Peer) : Parser Char ParseState Request ProtocolError where
  next := ParseState.next peer
  used_pos _ _ _ _ _ taken := (ParseState.next_step taken).1
  used_le _ _ _ _ _ taken := (ParseState.next_step taken).2.1
  stable _ _ more decided := ParseState.next_stable decided more

theorem wireParser_next (peer : Peer) (s : ParseState) (input : Text) :
    (wireParser peer).next s input = s.next peer input := rfl

theorem pos_of_leads {peer : Peer} {s s' : ParseState} {input rest : Text} {out : List Request}
    (leads : Leads (wireParser peer) s input out s' rest) :
    s'.pos + rest.length = s.pos + input.length := by
  induction leads with
  | refl => rfl
  | head first _ ih =>
      obtain ⟨_, bound, moved⟩ := ParseState.next_step first
      rw [ih, moved, List.length_drop]
      omega

end KeyDB

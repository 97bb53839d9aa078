import DistributedColoring.Dialogue
import DistributedColoring.ChosenColor
import DistributedColoring.KeyNames
import Mathlib.Data.List.TakeWhile

set_option autoImplicit false

/- The client 1server/color.c, one call of `process_node`. The array of locks has a place
for every neighbour and comes from `malloc`; `read_color_of_neighbors` fills the places of
the neighbours it locks, the release loop goes over all of them. Keys are texts here, since
what is left in a place is any text. -/
namespace DistributedColoring.OneServer

open CText
open Dialogue

/-- What `redisCommand` returns. -/
inductive RedisReply
  | null
  | nil
  | string (str : Text)
  | status (str : Text)
  | error (str : Text)
  | array (elements : List Text)
  deriving DecidableEq

/-- `reply->str`, `none` for NULL or where there is no reply to look into. -/
def RedisReply.str : RedisReply → Option Text
  | .string str => some str
  | .status str => some str
  | .error str => some str
  | _ => none

inductive Command
  | smembers (key : Text)
  | get (key : Text)
  | set (key value : Text)
  deriving DecidableEq

/-- Where a command is sent: the function, or the variable of `acquire_lock` that takes
the reply. -/
inductive Site
  | getAllNeighbours
  | checkBoundaryNode
  | getStatus
  | myFlag
  | turnVar
  | otherFlag
  | turnVarNew
  | getNodeColor
  | setNodeColor
  | setStatus
  | releaseLock
  deriving DecidableEq

structure Request where
  site : Site
  command : Command
  deriving DecidableEq

abbrev Session : Type → Type := Proc Request RedisReply

def redisCommand (site : Site) (command : Command) : Session RedisReply := Proc.ask ⟨site, command⟩

/-- The condition of the loop in `acquire_lock`, from left to right; `none` where it looks
into a NULL. -/
def mustWait (otherFlag turnVar : RedisReply) (nodeName : Text) : Option Bool :=
  if otherFlag = .null then none
  else
    match otherFlag.str with
    | none => some false
    | some flag => if flag = ['1'] then turnVar.str.map (· = nodeName) else some false

def acquireLock (lock : LockNames) : Session Unit := do
  let _ ← redisCommand .myFlag (.set lock.lockKey1 ['1'])
  let _ ← redisCommand .turnVar (.set lock.turnKey lock.nodeName)
  let otherFlag ← redisCommand .otherFlag (.get lock.lockKey2)
  let turnVar ← redisCommand .turnVarNew (.get lock.turnKey)
  Proc.loop (fun replies => do
    if ← Proc.orCrash (mustWait replies.1 replies.2 lock.nodeName) then
      let turnVar ← redisCommand .turnVarNew (.get lock.turnKey)
      let otherFlag ← redisCommand .otherFlag (.get lock.lockKey2)
      return .inl (otherFlag, turnVar)
    else
      return .inr ()) (otherFlag, turnVar)

/-- The reply is freed, whatever it is. -/
def releaseLock (lock : LockNames) : Session RedisReply :=
  redisCommand .releaseLock (.set lock.lockKey1 ['0'])

/-- The list and the count, which stays 0 where the list is NULL. -/
def getAllNeighbours : RedisReply → List Text
  | .array elements => elements
  | _ => []

def compareNeighbours (a b : Text) : ℤ := toInt (atoi a - atoi b)

def sortNeighbours (neighbourList : List Text) : List Text :=
  neighbourList.insertionSort fun a b => compareNeighbours a b ≤ 0

/-- `none` where `atoi` is given NULL. -/
def getNodeColor : RedisReply → Option ℤ
  | .null => some (-1)
  | .nil => some (-1)
  | reply => reply.str.map atoi

def getStatus : RedisReply → ℤ
  | .string str => atoi str
  | _ => 0

/-- The neighbour is in another partition. -/
def External (first last : ℤ) (nbr : Text) : Prop := atoi nbr < first ∨ last < atoi nbr

instance (first last : ℤ) (nbr : Text) : Decidable (External first last nbr) :=
  inferInstanceAs (Decidable (_ ∨ _))

def nbrStatusKey (nbr : Text) : Text := snprintf 256 ("node_".toList ++ (nbr ++ "_status".toList))

def nbrColorKey (nbr : Text) : Text := snprintf 256 ("node_".toList ++ (nbr ++ "_color".toList))

/-- The lock in one pass of `read_color_of_neighbors`: the place of the neighbour in the
array of locks before and after. -/
def lockNeighbour (node : Text) (first last : ℤ) (nbr : Text) (place : LockNames) :
    Session LockNames :=
  if External first last nbr then do
    let status ← redisCommand .getStatus (.get (nbrStatusKey nbr))
    if getStatus status = 0 then do
      let lock ← Proc.orCrash (lockNames node nbr)
      acquireLock lock
      return lock
    else
      return place
  else
    return place

/-- The whole pass. -/
def readNeighbour (node : Text) (first last : ℤ) (nbr : Text) (place : LockNames) :
    Session (ℤ × LockNames) := do
  let place ← lockNeighbour node first last nbr place
  let reply ← redisCommand .getNodeColor (.get (nbrColorKey nbr))
  let color ← Proc.orCrash (getNodeColor reply)
  return (color, place)

/-- `nbr_color_list` and `locks_array`. -/
def readColorOfNeighbors (node : Text) (first last : ℤ) :
    List (Text × LockNames) → Session (List ℤ × List LockNames)
  | [] => return ([], [])
  | (nbr, place) :: todo => do
      let (color, place) ← readNeighbour node first last nbr place
      let (colors, locks) ← readColorOfNeighbors node first last todo
      return (color :: colors, place :: locks)

def releaseLocks : List LockNames → Session Unit
  | [] => return ()
  | lock :: locks => do
      let _ ← releaseLock lock
      releaseLocks locks

def colorKey (node : Text) : Text := snprintf 256 (node ++ "_color".toList)

def statusKey (node : Text) : Text := snprintf 256 (node ++ "_status".toList)

def neighboursKey (node : Text) : Text := snprintf 256 (node ++ "_neighbours".toList)

/-- `process_node` once it has its list of neighbours; `memory i` is what `malloc` leaves
in place `i`, as far as the C strings go. -/
def colorNode (memory : ℕ → LockNames) (node : Text) (first last : ℤ)
    (neighbourList : List Text) : Session Unit := do
  let boundary ← redisCommand .checkBoundaryNode (.smembers (neighboursKey node))
  -- `reply->elements` without a test for NULL; the result itself is not used
  if boundary = .null then Proc.crash
  else do
    let sorted := sortNeighbours neighbourList
    let locksArray := (List.range sorted.length).map memory
    let (colors, locks) ← readColorOfNeighbors node first last (sorted.zip locksArray)
    let newColor ← Proc.orCrash (getMinimalValueInt false 2 colors 0 1000)
    let _ ← redisCommand .setNodeColor (.set (colorKey node) (colorStr newColor))
    let _ ← redisCommand .setStatus (.set (statusKey node) ['1'])
    releaseLocks locks

def processNode (memory : ℕ → LockNames) (node : Text) (first last : ℤ) : Session Unit := do
  let reply ← redisCommand .getAllNeighbours (.smembers (neighboursKey node))
  colorNode memory node first last (getAllNeighbours reply)

abbrev Trace := List (Request × Option RedisReply)

def Command.setKey? : Command → Option Text
  | .set key _ => some key
  | _ => none

/-- From the commands sent at one place in the source. -/
def collect {β : Type} (f : Request × Option RedisReply → Option β) (site : Site)
    (trace : Trace) : List β :=
  trace.filterMap fun e => if e.1.site = site then f e else none

def keysSet : Site → Trace → List Text := collect fun e => e.1.command.setKey?

def answers : Site → Trace → List RedisReply := collect Prod.snd

section Collect

variable {β : Type} {f : Request × Option RedisReply → Option β} {site : Site}

theorem collect_cons (e : Request × Option RedisReply) (trace : Trace) :
    collect f site (e :: trace) =
      (if e.1.site = site then (f e).toList else []) ++ collect f site trace := by
  by_cases same : e.1.site = site
  · cases value : f e <;> simp [collect, same, value]
  · simp [collect, same]

theorem collect_append (trace later : Trace) :
    collect f site (trace ++ later) = collect f site trace ++ collect f site later :=
  List.filterMap_append

theorem collect_eq_nil {trace : Trace} (other : ∀ e ∈ trace, e.1.site ≠ site) :
    collect f site trace = [] := by
  rw [collect, List.filterMap_eq_nil_iff]
  intro e member
  rw [if_neg (other e member)]

end Collect

theorem keysSet_append (site : Site) (trace later : Trace) :
    keysSet site (trace ++ later) = keysSet site trace ++ keysSet site later :=
  collect_append trace later

theorem answers_append (site : Site) (trace later : Trace) :
    answers site (trace ++ later) = answers site trace ++ answers site later :=
  collect_append trace later

theorem mem_keysSet {site : Site} {trace : Trace} {key : Text} : key ∈ keysSet site trace ↔
    ∃ e ∈ trace, e.1.site = site ∧ ∃ value, e.1.command = .set key value := by
  simp only [keysSet, collect, List.mem_filterMap]
  refine exists_congr fun e => and_congr_right fun _ => ?_
  by_cases same : e.1.site = site
  · cases command : e.1.command <;> simp [same, Command.setKey?]
  · simp [same]

/-- The flag or the turn of a neighbour in another partition that was found uncoloured. -/
def LockKey (node : Text) (first last : ℤ) (nbrs : List Text) (trace : Trace) (key : Text) : Prop :=
  ∃ nbr ∈ nbrs, External first last nbr ∧
    (∃ reply, (⟨.getStatus, .get (nbrStatusKey nbr)⟩, some reply) ∈ trace ∧
      getStatus reply = 0) ∧
    ∃ lock, lockNames node nbr = some lock ∧ (key = lock.lockKey1 ∨ key = lock.turnKey)

theorem LockKey.mono {node : Text} {first last : ℤ} {nbrs nbrs' : List Text}
    {trace trace' : Trace} {key : Text} (lockKey : LockKey node first last nbrs trace key)
    (more : nbrs ⊆ nbrs') (later : trace ⊆ trace') :
    LockKey node first last nbrs' trace' key := by
  obtain ⟨nbr, member, external, ⟨reply, read, zero⟩, lock⟩ := lockKey
  exact ⟨nbr, more member, external, ⟨reply, later read, zero⟩, lock⟩

/-- Every neighbour is in another partition and found uncoloured. -/
def AllLocked (first last : ℤ) (nbrs : List Text) (trace : Trace) : Prop :=
  (∀ nbr ∈ nbrs, External first last nbr) ∧
    ∀ reply ∈ answers .getStatus trace, getStatus reply = 0

/-- What is sent for a lock after its flag. -/
def AfterFlag (lock : LockNames) (e : Request × Option RedisReply) : Prop :=
  e.1.site ∈ [Site.turnVar, .otherFlag, .turnVarNew] ∧
    ∀ key value, e.1.command = .set key value → key = lock.turnKey

theorem acquireLock_holds (lock : LockNames) : (acquireLock lock).Holds fun trace _ =>
    ∃ e later, trace = e :: later ∧ e.1 = ⟨.myFlag, .set lock.lockKey1 ['1']⟩ ∧
      ∀ e ∈ later, AfterFlag lock e := by
  refine .ask_bind ⟨_, _, rfl, rfl, by simp⟩ fun reply => ?_
  suffices rest : Proc.Sends _ (AfterFlag lock) from
    rest.mono fun later _ all => ⟨_, _, rfl, rfl, all⟩
  have turnVarNew : (redisCommand .turnVarNew (.get lock.turnKey)).Sends (AfterFlag lock) :=
    .ask (by simp [AfterFlag])
  have otherFlag : (redisCommand .otherFlag (.get lock.lockKey2)).Sends (AfterFlag lock) :=
    .ask (by simp [AfterFlag])
  refine .bind (.ask (by simp [AfterFlag])) fun _ => otherFlag.bind fun _ =>
    turnVarNew.bind fun _ => .loop (fun replies => ?_) _
  refine .bind (.orCrash _) fun again => ?_
  split
  · exact turnVarNew.bind fun _ => otherFlag.bind fun _ => .pure _
  · exact .pure _

variable {node : Text} {first last : ℤ} {nbrs nbrs' : List Text} {trace trace' : Trace}
  {locks locks' : List LockNames}

/-- What is sent while neighbours are read. -/
structure Passed (node : Text) (first last : ℤ) (nbrs : List Text) (trace : Trace) : Prop where
  own : ∀ e ∈ trace, ∀ key value, e.1.command = .set key value →
    LockKey node first last nbrs trace key
  unreleased : keysSet .releaseLock trace = []

/-- The places of the neighbours that were read: either all of them are locks, or fewer
flags were set. -/
structure Tally (first last : ℤ) (nbrs : List Text) (trace : Trace) (locks : List LockNames) :
    Prop where
  length : locks.length = nbrs.length
  bound : (keysSet .myFlag trace).length ≤ nbrs.length
  all : (keysSet .myFlag trace).length = nbrs.length → AllLocked first last nbrs trace
  keys : AllLocked first last nbrs trace → keysSet .myFlag trace = locks.map (·.lockKey1)

theorem allLocked_append : AllLocked first last (nbrs ++ nbrs') (trace ++ trace') ↔
    AllLocked first last nbrs trace ∧ AllLocked first last nbrs' trace' := by
  simp only [AllLocked, answers_append, List.forall_mem_append]
  tauto

theorem Passed.append (passed : Passed node first last nbrs trace)
    (passed' : Passed node first last nbrs' trace') :
    Passed node first last (nbrs ++ nbrs') (trace ++ trace') := by
  refine ⟨?_, ?_⟩
  · intro e member key value set
    rcases List.mem_append.mp member with before | after
    · exact (passed.own e before key value set).mono (List.subset_append_left _ _)
        (List.subset_append_left _ _)
    · exact (passed'.own e after key value set).mono (List.subset_append_right _ _)
        (List.subset_append_right _ _)
  · rw [keysSet_append, passed.unreleased, passed'.unreleased]
    rfl

theorem Tally.append (tally : Tally first last nbrs trace locks)
    (tally' : Tally first last nbrs' trace' locks') :
    Tally first last (nbrs ++ nbrs') (trace ++ trace') (locks ++ locks') := by
  have bound := tally.bound
  have bound' := tally'.bound
  refine ⟨?_, ?_, ?_, ?_⟩
  · rw [List.length_append, List.length_append, tally.length, tally'.length]
  · rw [keysSet_append, List.length_append, List.length_append]
    omega
  · rw [keysSet_append, List.length_append, List.length_append, allLocked_append]
    intro full
    exact ⟨tally.all (by omega), tally'.all (by omega)⟩
  · rw [keysSet_append, allLocked_append, List.map_append]
    rintro ⟨all, all'⟩
    rw [tally.keys all, tally'.keys all']

/-- A read between the passes. -/
theorem passed_get (node : Text) (first last : ℤ) (site : Site) (key : Text)
    (reply : Option RedisReply) (other : site ∉ [Site.getStatus, .myFlag, .releaseLock]) :
    Passed node first last [] [(⟨site, .get key⟩, reply)] ∧
      Tally first last [] [(⟨site, .get key⟩, reply)] [] := by
  simp only [List.mem_cons, List.not_mem_nil, or_false, not_or] at other
  refine ⟨⟨by simp, ?_⟩, ⟨rfl, ?_, ?_, ?_⟩⟩
  · simp [keysSet, collect, other]
  · simp [keysSet, collect, other]
  · simp [AllLocked, answers, collect, other]
  · simp [keysSet, collect, other]

/-- The trace of a pass that locks. -/
theorem passed_of_locked {nbr : Text} {status : RedisReply} {lock : LockNames}
    (external : External first last nbr) (zero : getStatus status = 0)
    (built : lockNames node nbr = some lock)
    (locked : ∃ e later, trace = e :: later ∧ e.1 = ⟨.myFlag, .set lock.lockKey1 ['1']⟩ ∧
      ∀ e ∈ later, AfterFlag lock e) :
    let pass := (⟨.getStatus, .get (nbrStatusKey nbr)⟩, some status) :: trace
    Passed node first last [nbr] pass ∧ Tally first last [nbr] pass [lock] := by
  obtain ⟨⟨request, reply⟩, later, rfl, rfl, rest⟩ := locked
  intro pass
  have sites : ∀ site, site ∉ [Site.turnVar, .otherFlag, .turnVarNew] →
      ∀ e ∈ later, e.1.site ≠ site := by
    intro site outside e member same
    exact outside (same ▸ (rest e member).1)
  have found : ∀ key, key = lock.lockKey1 ∨ key = lock.turnKey →
      LockKey node first last [nbr] pass key := by
    intro key which
    exact ⟨nbr, by simp, external, ⟨status, by simp [pass], zero⟩, lock, built, which⟩
  have flags : keysSet .myFlag pass = [lock.lockKey1] := by
    have none : keysSet .myFlag later = [] := collect_eq_nil (sites .myFlag (by decide))
    simpa [keysSet, collect_cons, pass, Command.setKey?] using none
  have all : AllLocked first last [nbr] pass := by
    refine ⟨by simpa using external, fun reply member => ?_⟩
    have none : collect Prod.snd .getStatus later = [] :=
      collect_eq_nil (sites .getStatus (by decide))
    have only : reply = status := by simpa [answers, collect_cons, pass, none] using member
    rw [only, zero]
  refine ⟨⟨?_, ?_⟩, ⟨rfl, by simp [flags], fun _ => all, fun _ => flags⟩⟩
  · intro e member key value set
    rcases List.mem_cons.mp member with rfl | member
    · cases set
    · rcases List.mem_cons.mp member with rfl | member
      · cases set
        exact found _ (Or.inl rfl)
      · exact found _ (Or.inr ((rest e member).2 key value set))
  · have none : keysSet .releaseLock later = [] := collect_eq_nil (sites .releaseLock (by decide))
    simpa [keysSet, collect_cons, pass] using none

theorem lockNeighbour_holds (node : Text) (first last : ℤ) (nbr : Text) (place : LockNames) :
    (lockNeighbour node first last nbr place).Holds fun trace outcome =>
      Passed node first last [nbr] trace ∧
        ∀ lock, outcome = .returned lock → Tally first last [nbr] trace [lock] := by
  -- no flag is set, and this is not a neighbour to be locked
  have skipped : ∀ trace lock, keysSet .myFlag trace = [] →
      ¬ AllLocked first last [nbr] trace → Tally first last [nbr] trace [lock] := by
    intro trace lock none some
    exact ⟨rfl, by simp [none], by simp [none], fun all => absurd all some⟩
  unfold lockNeighbour
  split
  · rename_i external
    refine .ask_bind ⟨⟨by simp, rfl⟩, by simp⟩ fun status => ?_
    split
    · rename_i zero
      refine .orCrash_bind (fun _ => ⟨⟨by simp, rfl⟩, by simp⟩) fun lock built => ?_
      refine (acquireLock_holds lock).bind
        (fun trace locked => ⟨(passed_of_locked external zero built locked).1, by simp⟩)
        (fun trace locked => ⟨(passed_of_locked external zero built locked).1, by simp⟩) ?_
      intro trace _ locked
      have passed := passed_of_locked external zero built locked
      refine .pure ?_
      rw [List.append_nil]
      refine ⟨passed.1, fun place returned => ?_⟩
      cases returned
      exact passed.2
    · rename_i colored
      refine .pure ⟨⟨by simp, rfl⟩, fun lock _ => skipped _ _ rfl fun all => ?_⟩
      exact colored (all.2 status (by simp [answers, collect]))
  · rename_i inside
    refine .pure ⟨⟨by simp, rfl⟩, fun lock _ => skipped _ _ rfl fun all => ?_⟩
    exact inside (all.1 nbr (by simp))

theorem readNeighbour_holds (node : Text) (first last : ℤ) (nbr : Text) (place : LockNames) :
    (readNeighbour node first last nbr place).Holds fun trace outcome =>
      Passed node first last [nbr] trace ∧
        ∀ color lock, outcome = .returned (color, lock) →
          Tally first last [nbr] trace [lock] := by
  refine (lockNeighbour_holds node first last nbr place).bind (fun _ held => ⟨held.1, by simp⟩)
    (fun _ held => ⟨held.1, by simp⟩) fun trace lock held => ?_
  have read := fun reply => passed_get node first last .getNodeColor (nbrColorKey nbr) reply
    (by decide)
  refine .ask_bind ⟨held.1.append (read none).1, by simp⟩ fun reply => ?_
  have passed := held.1.append (read (some reply)).1
  refine .orCrash_bind (fun _ => ⟨passed, by simp⟩) fun color _ => .pure ⟨passed, ?_⟩
  intro color place returned
  cases returned
  exact (held.2 lock rfl).append (read (some reply)).2

theorem readColorOfNeighbors_holds (node : Text) (first last : ℤ)
    (todo : List (Text × LockNames)) :
    (readColorOfNeighbors node first last todo).Holds fun trace outcome =>
      Passed node first last (todo.map Prod.fst) trace ∧
        ∀ colors locks, outcome = .returned (colors, locks) →
          Tally first last (todo.map Prod.fst) trace locks := by
  induction todo with
  | nil =>
      refine .pure ⟨⟨by simp, rfl⟩, fun colors locks returned => ?_⟩
      cases returned
      exact ⟨rfl, Nat.le_refl _, fun _ => by simp [AllLocked, answers, collect], fun _ => rfl⟩
  | cons entry todo ih =>
      obtain ⟨nbr, place⟩ := entry
      -- while the first neighbour is read the others are not locked
      have alone : ∀ trace, Passed node first last [nbr] trace →
          Passed node first last (nbr :: todo.map Prod.fst) trace := by
        intro trace passed
        have more : Passed node first last ([nbr] ++ todo.map Prod.fst) (trace ++ []) :=
          passed.append ⟨by simp, rfl⟩
        rwa [List.append_nil] at more
      refine (readNeighbour_holds node first last nbr place).bind
        (fun _ held => ⟨alone _ held.1, by simp⟩) (fun _ held => ⟨alone _ held.1, by simp⟩) ?_
      rintro trace ⟨color, lock⟩ held
      refine ih.bind (fun _ later => ⟨held.1.append later.1, by simp⟩)
        (fun _ later => ⟨held.1.append later.1, by simp⟩) ?_
      rintro trace' ⟨colors, locks⟩ later
      refine .pure ?_
      rw [List.append_nil]
      refine ⟨held.1.append later.1, fun colors locks returned => ?_⟩
      cases returned
      exact (held.2 color lock rfl).append (later.2 colors _ rfl)

theorem releaseLocks_holds (locks : List LockNames) :
    (releaseLocks locks).Holds fun trace outcome =>
      (∀ e ∈ trace, e.1.site = .releaseLock) ∧
        keysSet .releaseLock trace <+: locks.map (·.lockKey1) ∧
        (outcome = .returned () → keysSet .releaseLock trace = locks.map (·.lockKey1)) := by
  induction locks with
  | nil => exact .pure ⟨by simp, List.prefix_refl _, fun _ => rfl⟩
  | cons lock locks ih =>
      have first : ∀ reply later, keysSet .releaseLock
          ((⟨.releaseLock, .set lock.lockKey1 ['0']⟩, reply) :: later) =
          lock.lockKey1 :: keysSet .releaseLock later := by
        intro reply later
        simp [keysSet, collect_cons, Command.setKey?]
      refine .ask_bind ⟨by simp, ?_, by simp⟩ fun reply => ih.mono fun later outcome held => ?_
      · rw [first]
        exact ⟨locks.map (·.lockKey1), rfl⟩
      · rw [first, List.map_cons, List.prefix_cons_inj, List.cons_inj_right]
        exact ⟨by simpa using held.1, held.2⟩

/-- A call writes the colour and the status of its node and the locks of the neighbours it
found uncoloured; it releases no lock that it has not acquired and none twice, and when it
returns it has released them all. -/
structure Exact (node : Text) (first last : ℤ) (nbrs : List Text) (trace : Trace)
    (outcome : Outcome Unit) : Prop where
  own : ∀ e ∈ trace, ∀ key value, e.1.command = .set key value →
    key = colorKey node ∨ key = statusKey node ∨ LockKey node first last nbrs trace key
  released : (keysSet .releaseLock trace).Subperm (keysSet .myFlag trace)
  once : outcome = .returned () → (keysSet .releaseLock trace).Perm (keysSet .myFlag trace)

/-- What a call sends besides reading its neighbours and releasing. -/
def Plain (node : Text) (e : Request × Option RedisReply) : Prop :=
  e.1.site ∉ [Site.getStatus, .myFlag, .releaseLock] ∧
    ∀ key value, e.1.command = .set key value → key = colorKey node ∨ key = statusKey node

/-- What is known of a call at any time. -/
structure Settled (node : Text) (first last : ℤ) (nbrs : List Text) (trace : Trace)
    (outcome : Outcome Unit) : Prop where
  own : ∀ e ∈ trace, e.1.site ≠ .releaseLock → ∀ key value, e.1.command = .set key value →
    key = colorKey node ∨ key = statusKey node ∨ LockKey node first last nbrs trace key
  exact : AllLocked first last nbrs trace → Exact node first last nbrs trace outcome
  only : outcome = .returned () → Exact node first last nbrs trace outcome →
    AllLocked first last nbrs trace

theorem Passed.lockKey (passed : Passed node first last nbrs trace) {key : Text}
    (member : key ∈ keysSet .myFlag trace) : LockKey node first last nbrs trace key := by
  obtain ⟨e, inTrace, _, value, set⟩ := mem_keysSet.mp member
  exact passed.own e inTrace key value set

/-- The commands of a call: those that read the neighbours, with others of the call before and
after them, and those of the release loop. -/
structure Parts (node : Text) (first last : ℤ) (nbrs : List Text) (trace released total : Trace) :
    Prop where
  split : ∃ front own, total = front ++ (trace ++ (own ++ released)) ∧
    (∀ e ∈ front, Plain node e) ∧ ∀ e ∈ own, Plain node e
  passed : Passed node first last nbrs trace
  sites : ∀ e ∈ released, e.1.site = .releaseLock

section Parts

variable {released total : Trace} {outcome : Outcome Unit}

theorem collect_plain {β : Type} (f : Request × Option RedisReply → Option β) {site : Site}
    (member : site ∈ [Site.getStatus, .myFlag, .releaseLock]) {part : Trace}
    (plain : ∀ e ∈ part, Plain node e) : collect f site part = [] :=
  collect_eq_nil fun e inPart same => (plain e inPart).1 (same ▸ member)

/-- Only the reading part and the release loop count. -/
theorem Parts.collect_eq (parts : Parts node first last nbrs trace released total) {β : Type}
    (f : Request × Option RedisReply → Option β) {site : Site}
    (member : site ∈ [Site.getStatus, .myFlag, .releaseLock]) :
    collect f site total = collect f site trace ++ collect f site released := by
  obtain ⟨front, own, rfl, plain, plain'⟩ := parts.split
  rw [collect_append, collect_append, collect_append, collect_plain f member plain,
    collect_plain f member plain']
  rfl

theorem Parts.collect_read (parts : Parts node first last nbrs trace released total) {β : Type}
    (f : Request × Option RedisReply → Option β) {site : Site}
    (member : site ∈ [Site.getStatus, .myFlag]) : collect f site total = collect f site trace := by
  have other : site ≠ .releaseLock := by
    rintro rfl
    exact absurd member (by decide)
  have none : collect f site released = [] :=
    collect_eq_nil fun e inReleased same => other (same ▸ parts.sites e inReleased)
  rw [parts.collect_eq f (List.mem_append_left [.releaseLock] member), none, List.append_nil]

theorem Parts.flags (parts : Parts node first last nbrs trace released total) :
    keysSet .myFlag total = keysSet .myFlag trace :=
  parts.collect_read _ (by decide)

theorem Parts.releases (parts : Parts node first last nbrs trace released total) :
    keysSet .releaseLock total = keysSet .releaseLock released := by
  have whole : keysSet .releaseLock total =
      keysSet .releaseLock trace ++ keysSet .releaseLock released :=
    parts.collect_eq _ (by decide)
  rw [whole, parts.passed.unreleased, List.nil_append]

theorem Parts.allLocked (parts : Parts node first last nbrs trace released total) :
    AllLocked first last nbrs total ↔ AllLocked first last nbrs trace := by
  rw [AllLocked, answers, parts.collect_read _ (by decide)]
  rfl

theorem Parts.subset (parts : Parts node first last nbrs trace released total) :
    trace ⊆ total := by
  obtain ⟨front, own, rfl, _⟩ := parts.split
  exact List.subset_append_of_subset_right _ (List.subset_append_left _ _)

theorem Parts.own (parts : Parts node first last nbrs trace released total) :
    ∀ e ∈ total, e.1.site ≠ .releaseLock → ∀ key value, e.1.command = .set key value →
      key = colorKey node ∨ key = statusKey node ∨ LockKey node first last nbrs total key := by
  intro e member other key value set
  have kept := parts.subset
  obtain ⟨front, own, rfl, plain, plain'⟩ := parts.split
  simp only [List.mem_append] at member
  rcases member with inFront | inTrace | inOwn | inReleased
  · exact ((plain e inFront).2 key value set).imp_right Or.inl
  · exact Or.inr (Or.inr ((parts.passed.own e inTrace key value set).mono (fun _ => id) kept))
  · exact ((plain' e inOwn).2 key value set).imp_right Or.inl
  · exact absurd (parts.sites e inReleased) other

/-- The release loop as well keeps to its own keys if what it releases was locked. -/
theorem Parts.own_released (parts : Parts node first last nbrs trace released total)
    (locked : keysSet .releaseLock released ⊆ keysSet .myFlag trace) :
    ∀ e ∈ total, ∀ key value, e.1.command = .set key value →
      key = colorKey node ∨ key = statusKey node ∨ LockKey node first last nbrs total key := by
  intro e member key value set
  by_cases same : e.1.site = .releaseLock
  · have found := mem_keysSet.mpr ⟨e, member, same, value, set⟩
    rw [parts.releases] at found
    exact Or.inr (Or.inr ((parts.passed.lockKey (locked found)).mono (fun _ => id) parts.subset))
  · exact parts.own e member same key value set

/-- A call before its release loop. -/
theorem Parts.settled_running (parts : Parts node first last nbrs trace [] total)
    (running : outcome ≠ .returned ()) : Settled node first last nbrs total outcome := by
  refine ⟨parts.own, fun _ => ⟨parts.own_released (List.nil_subset _), ?_,
    fun done => absurd done running⟩, fun done => absurd done running⟩
  rw [parts.releases]
  exact List.nil_subperm

/-- A call in its release loop, or after it. -/
theorem Parts.settled (parts : Parts node first last nbrs trace released total)
    (tally : Tally first last nbrs trace locks)
    (front : keysSet .releaseLock released <+: locks.map (·.lockKey1))
    (whole : outcome = .returned () →
      keysSet .releaseLock released = locks.map (·.lockKey1)) :
    Settled node first last nbrs total outcome := by
  refine ⟨parts.own, fun locked => ?_, fun done exact => ?_⟩
  · have keys := tally.keys (parts.allLocked.mp locked)
    rw [← keys] at front whole
    refine ⟨parts.own_released front.subset, ?_, fun done => ?_⟩
    · rw [parts.releases, parts.flags]
      exact front.sublist.subperm
    · rw [parts.releases, parts.flags, whole done]
  · have count := (exact.once done).length_eq
    rw [parts.releases, parts.flags, whole done, List.length_map, tally.length] at count
    exact parts.allLocked.mpr (tally.all count.symm)

end Parts

theorem colorNode_holds (memory : ℕ → LockNames) (node : Text) (first last : ℤ)
    (neighbourList : List Text) {front : Trace} (plain : ∀ e ∈ front, Plain node e) :
    (colorNode memory node first last neighbourList).Holds fun later outcome =>
      Settled node first last (sortNeighbours neighbourList) (front ++ later) outcome := by
  have asked : ∀ reply, ∀ e ∈ front ++
      [(⟨.checkBoundaryNode, .smembers (neighboursKey node)⟩, reply)], Plain node e := by
    intro reply
    refine List.forall_mem_append.mpr ⟨plain, ?_⟩
    simp [Plain]
  have color : ∀ value reply, Plain node (⟨.setNodeColor, .set (colorKey node) value⟩, reply) := by
    simp +contextual [Plain]
  have status : ∀ value reply, Plain node (⟨.setStatus, .set (statusKey node) value⟩, reply) := by
    simp +contextual [Plain]
  have nothing : Passed node first last (sortNeighbours neighbourList) [] := ⟨by simp, rfl⟩
  have places : ((sortNeighbours neighbourList).zip ((List.range
      (sortNeighbours neighbourList).length).map memory)).map Prod.fst =
      sortNeighbours neighbourList := List.map_fst_zip (by simp)
  -- before the release loop it only matters what was sent
  have running : ∀ reply {trace total own outcome}, Passed node first last
      (sortNeighbours neighbourList) trace → (∀ e ∈ own, Plain node e) → total = (front ++
        [(⟨.checkBoundaryNode, .smembers (neighboursKey node)⟩, reply)]) ++ (trace ++ own) →
      outcome ≠ .returned () →
      Settled node first last (sortNeighbours neighbourList) total outcome := by
    intro reply trace total own outcome passed plain' split
    exact Parts.settled_running ⟨⟨_, own, by rw [split, List.append_nil], asked reply, plain'⟩,
      passed, by simp⟩
  refine .ask_bind (running none nothing (List.forall_mem_nil _) (by simp) (by simp))
    fun reply => ?_
  split
  · exact .crash (running (some reply) nothing (List.forall_mem_nil _) (by simp) (by simp))
  · have read := readColorOfNeighbors_holds node first last ((sortNeighbours neighbourList).zip
      ((List.range (sortNeighbours neighbourList).length).map memory))
    rw [places] at read
    refine read.bind ?_ ?_ ?_
    · intro trace held
      exact running (some reply) held.1 (List.forall_mem_nil _) (by simp) (by simp)
    · intro trace held
      exact running (some reply) held.1 (List.forall_mem_nil _) (by simp) (by simp)
    · rintro trace ⟨colors, locks⟩ held
      refine .orCrash_bind (fun _ => ?_) fun newColor _ => .ask_bind ?_ fun first => .ask_bind ?_
        fun second => (releaseLocks_holds locks).mono ?_
      · exact running (some reply) held.1 (List.forall_mem_nil _) (by simp) (by simp)
      · exact running (some reply) held.1 (List.forall_mem_singleton.mpr
          (color (colorStr newColor) none)) (by simp) (by simp)
      · exact running (some reply) held.1 (List.forall_mem_cons.mpr
          ⟨color (colorStr newColor) (some first), List.forall_mem_singleton.mpr
            (status ['1'] none)⟩) (by simp) (by simp)
      · rintro later outcome ⟨sites, front', whole⟩
        refine Parts.settled ⟨⟨_, _, ?_, asked (some reply), List.forall_mem_cons.mpr
          ⟨color (colorStr newColor) (some first), List.forall_mem_singleton.mpr
            (status ['1'] (some second))⟩⟩, held.1, sites⟩ (held.2 colors locks rfl) front' whole
        simp

theorem exists_lockNames {node : Text} (named : '_' ∈ node) (nbr : Text) :
    ∃ lock, lockNames node nbr = some lock := by
  have rest : node.dropWhile (· ≠ '_') ≠ [] := by
    intro empty
    have all := List.dropWhile_eq_nil_iff.mp empty '_' named
    simp at all
  obtain ⟨c, number, split⟩ := List.exists_cons_of_ne_nil rest
  unfold lockNames extractNumberFromString
  rw [split]
  exact ⟨_, rfl⟩

/-- A lock whose other flag is not there is granted at once. -/
theorem acquireLock_returns (lock : LockNames) :
    (acquireLock lock).CanReturn fun trace _ => answers .getStatus trace = [] :=
  .ask_bind .nil (.ask_bind .nil (.ask_bind .nil (.ask_bind .nil (.loop rfl rfl))))

/-- The statuses are answered at will. -/
theorem lockNeighbour_returns {node : Text} (named : '_' ∈ node) (first last : ℤ)
    (status : Text → RedisReply) (nbr : Text) (place : LockNames) :
    (lockNeighbour node first last nbr place).CanReturn fun trace _ =>
      answers .getStatus trace = ([nbr].filter (External first last ·)).map status := by
  unfold lockNeighbour
  by_cases external : External first last nbr
  · rw [if_pos external]
    refine .ask_bind (status nbr) ?_
    by_cases zero : getStatus (status nbr) = 0
    · obtain ⟨lock, built⟩ := exists_lockNames named nbr
      rw [if_pos zero]
      refine .orCrash_bind built (.bind (acquireLock_returns lock) ?_)
      intro trace _ none
      refine .pure ?_
      simpa [answers, collect_cons, external] using none
    · rw [if_neg zero]
      exact .pure (by simp [answers, collect, external])
  · rw [if_neg external]
    exact .pure (by simp [answers, collect, external])

theorem readNeighbour_returns {node : Text} (named : '_' ∈ node) (first last : ℤ)
    (status : Text → RedisReply) (nbr : Text) (place : LockNames) :
    (readNeighbour node first last nbr place).CanReturn fun trace _ =>
      answers .getStatus trace = ([nbr].filter (External first last ·)).map status := by
  refine .bind (lockNeighbour_returns named first last status nbr place) ?_
  intro trace lock answered
  refine .ask_bind .nil (.orCrash_bind rfl (.pure ?_))
  rw [answers_append, answered]
  simp [answers, collect]

theorem readColorOfNeighbors_returns {node : Text} (named : '_' ∈ node) (first last : ℤ)
    (status : Text → RedisReply) (todo : List (Text × LockNames)) :
    (readColorOfNeighbors node first last todo).CanReturn fun trace result =>
      answers .getStatus trace =
        ((todo.map Prod.fst).filter (External first last ·)).map status ∧
      result.1.length = todo.length := by
  induction todo with
  | nil => exact .pure ⟨rfl, rfl⟩
  | cons entry todo ih =>
      obtain ⟨nbr, place⟩ := entry
      refine .bind (readNeighbour_returns named first last status nbr place) ?_
      intro trace value answered
      refine .bind ih fun trace' result later => .pure ⟨?_, ?_⟩
      · rw [List.append_nil, answers_append, answered, later.1, ← List.map_append,
          ← List.filter_append]
        rfl
      · exact congrArg (· + 1) later.2

theorem releaseLocks_returns (locks : List LockNames) :
    (releaseLocks locks).CanReturn fun trace _ => answers .getStatus trace = [] := by
  induction locks with
  | nil => exact .pure rfl
  | cons lock locks ih => exact .ask_bind .nil ih

/-- Whatever the neighbours, the range and the statuses, the call can return. -/
theorem colorNode_returns (memory : ℕ → LockNames) {node : Text} (named : '_' ∈ node)
    (first last : ℤ) (status : Text → RedisReply) (neighbourList : List Text)
    (degree : neighbourList.length < 10 ^ 9 - 1) :
    (colorNode memory node first last neighbourList).CanReturn fun trace _ =>
      answers .getStatus trace =
        ((sortNeighbours neighbourList).filter (External first last ·)).map status := by
  have places : ((sortNeighbours neighbourList).zip ((List.range
      (sortNeighbours neighbourList).length).map memory)).map Prod.fst =
      sortNeighbours neighbourList := List.map_fst_zip (by simp)
  refine .ask_bind .nil ?_
  rw [if_neg (by decide)]
  refine .bind (readColorOfNeighbors_returns named first last status _) ?_
  rintro trace ⟨colors, locks⟩ ⟨answered, count⟩
  have small : colors.length < 10 ^ 9 - 1 := by
    simpa [count, sortNeighbours] using degree
  obtain ⟨x, found, _⟩ := chosen_of_colors false colors small
  refine .orCrash_bind found (.ask_bind .nil (.ask_bind .nil ?_))
  obtain ⟨replies, later, value, returns, none⟩ := releaseLocks_returns locks
  refine ⟨replies, later, value, returns, ?_⟩
  rw [places] at answered
  rw [← answered]
  simpa [answers, collect_cons, collect_append] using none

theorem processNode_cons (memory : ℕ → LockNames) (node : Text) (first last : ℤ)
    (listing : RedisReply) (replies : List RedisReply) :
    processNode memory node first last (listing :: replies) =
      let later := colorNode memory node first last (getAllNeighbours listing) replies
      ⟨(⟨.getAllNeighbours, .smembers (neighboursKey node)⟩, some listing) :: later.trace,
        later.rest, later.outcome⟩ :=
  rfl

/-- A call keeps to its own keys before the release loop. It releases exactly what it
acquired if every neighbour is in another partition and found uncoloured, and a call that
returns does so in no other case, whatever `malloc` left in the array. For all neighbours,
ranges and statuses there are calls that return. -/
theorem release_exact_iff (memory : ℕ → LockNames) (node : Text) (first last : ℤ)
    (listing : RedisReply) :
    (∀ replies, let result := processNode memory node first last (listing :: replies)
      let nbrs := sortNeighbours (getAllNeighbours listing)
      (∀ e ∈ result.trace, e.1.site ≠ .releaseLock → ∀ key value,
        e.1.command = .set key value → key = colorKey node ∨ key = statusKey node ∨
          LockKey node first last nbrs result.trace key) ∧
      (AllLocked first last nbrs result.trace →
        Exact node first last nbrs result.trace result.outcome) ∧
      (result.outcome = .returned () →
        (Exact node first last nbrs result.trace result.outcome ↔
          AllLocked first last nbrs result.trace))) ∧
    ('_' ∈ node → (getAllNeighbours listing).length < 10 ^ 9 - 1 →
      ∀ status : Text → RedisReply, ∃ replies,
        let result := processNode memory node first last (listing :: replies)
        result.outcome = .returned () ∧ answers .getStatus result.trace =
          ((sortNeighbours (getAllNeighbours listing)).filter
            (External first last ·)).map status) := by
  refine ⟨fun replies => ?_, fun named degree status => ?_⟩
  · have plain : ∀ e ∈ [((⟨.getAllNeighbours, .smembers (neighboursKey node)⟩ : Request),
        some listing)], Plain node e := by simp [Plain]
    have settled := colorNode_holds memory node first last (getAllNeighbours listing) plain replies
    exact ⟨settled.own, settled.exact, fun done => ⟨settled.only done, settled.exact⟩⟩
  · obtain ⟨replies, trace, value, returns, answered⟩ := colorNode_returns memory named first last
      status (getAllNeighbours listing) degree
    have whole := returns []
    rw [List.append_nil] at whole
    refine ⟨replies, ?_⟩
    rw [processNode_cons, whole]
    exact ⟨rfl, answered⟩

/-- Fresh memory is zero, so each place holds empty texts. -/
def zeroed : ℕ → LockNames := fun _ => ⟨[], [], [], []⟩

/-- A neighbour in another partition that has no status yet. -/
theorem release_exact_external : ∃ replies,
    let result := processNode zeroed "node_1".toList 0 1 (.array ["5".toList] :: replies)
    result.outcome = .returned () ∧
      Exact "node_1".toList 0 1 ["5".toList] result.trace result.outcome := by
  have theorems := release_exact_iff zeroed "node_1".toList 0 1 (.array ["5".toList])
  obtain ⟨replies, done, answered⟩ := theorems.2 (by decide) (by decide) fun _ => .nil
  refine ⟨replies, done, ((theorems.1 replies).2.2 done).mpr ⟨by decide, ?_⟩⟩
  intro reply member
  rw [answered] at member
  obtain ⟨nbr, _, rfl⟩ := List.mem_map.mp member
  rfl

/-- Nodes 0 and 1 are an edge inside the partition. The call for node 1 takes no lock and
sets the key with the empty name to 0. -/
theorem release_of_nothing : ∃ replies,
    let result := processNode zeroed "node_1".toList 0 1 (.array ["0".toList] :: replies)
    result.outcome = .returned () ∧ keysSet .myFlag result.trace = [] ∧
      (⟨.releaseLock, .set [] ['0']⟩, some (.status "OK".toList)) ∈ result.trace ∧
      ¬ Exact "node_1".toList 0 1 ["0".toList] result.trace result.outcome := by
  refine ⟨[.array ["0".toList], .string ['0'], .status "OK".toList, .status "OK".toList,
    .status "OK".toList], by decide +kernel, by decide +kernel, by decide +kernel, ?_⟩
  intro exact
  have count := (exact.once (by decide +kernel)).length_eq
  exact absurd count (by decide +kernel)

end DistributedColoring.OneServer

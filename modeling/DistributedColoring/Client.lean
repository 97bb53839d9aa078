import DistributedColoring.MinimalColor
import DistributedColoring.CText
import Mathlib.Data.List.Sort

set_option autoImplicit false

/- The coloring client, sync/color.c. A client is the sequence of commands it
sends: between two replies it computes alone, so its state is the point where it
waits for a reply together with the live local variables of `main`,
`process_node` and `read_color_of_neighbors`. Node ids stand for their decimal
texts, and so do the values stored under colour, status, flag and turn keys. -/
namespace DistributedColoring

open CText (atoi)

/-- `node_<v>_color`, `node_<v>_status`, `flag_<bothId>_<v>` and `turn_<bothId>`. -/
inductive Key
  | color (v : ℕ)
  | status (v : ℕ)
  | flag (bothId : ℕ × ℕ) (v : ℕ)
  | turn (bothId : ℕ × ℕ)
  deriving DecidableEq

/-- The lock that `read_color_of_neighbors` builds for `nbr` while processing `node`. -/
structure ClientGraphPetersonLock where
  node : ℕ
  nbr : ℕ
  deriving DecidableEq

namespace ClientGraphPetersonLock

variable (lock : ClientGraphPetersonLock)

def bothId : ℕ × ℕ :=
  if lock.nbr < lock.node then (lock.nbr, lock.node) else (lock.node, lock.nbr)

def lockKey1 : Key := .flag lock.bothId lock.node

def lockKey2 : Key := .flag lock.bothId lock.nbr

def turnKey : Key := .turn lock.bothId

def nodeName : ℕ := lock.node

end ClientGraphPetersonLock

/-- What `redisCommand` returns: `NULL`, a nil reply, an error whose `str` is the
message, or a reply of the type the command has. -/
inductive Reply (α : Type)
  | null
  | nil
  | error (msg : List Char)
  | value (x : α)
  deriving DecidableEq

/-- The reply to GET for a stored string, nil where there is none. -/
def Reply.stored {α : Type} : Option α → Reply α
  | some x => .value x
  | none => .nil

/-- One call of `write_with_wait`, named after the caller. -/
inductive Write
  | flag (lock : ClientGraphPetersonLock)
  | turn (lock : ClientGraphPetersonLock)
  | color (value : ℤ)
  | status
  | release (lock : ClientGraphPetersonLock)
  deriving DecidableEq

/-- The command whose reply a client is waiting for. -/
inductive Pc
  | getAllNeighbours
  | checkBoundaryNode
  | getStatus (nbr : ℕ)
  /-- SET in the loop of `write_with_wait`; `again` once it has been sent before. -/
  | set (w : Write) (again : Bool)
  | wait (w : Write)
  /-- The two GETs before the test of the spin loop, with the replies held so far. -/
  | spin (lock : ClientGraphPetersonLock) (inLoop : Bool) (otherFlag turnVar : Option (Reply ℤ))
  | getNodeColor (nbr : ℕ)
  | finished
  | crashed
  deriving DecidableEq

structure Local where
  /-- Loop variable of `main`. -/
  i : ℤ
  node : ℕ
  /-- `node_nbr_list_sorted` past the neighbour in hand. -/
  todo : List ℕ
  /-- `nbr_color_list`, each entry with its neighbour. -/
  colors : List (ℕ × ℤ)
  /-- `locks_array[0 .. num_locks)`, in the release loop its rest. -/
  locks : List ClientGraphPetersonLock
  pc : Pc
  deriving DecidableEq

/-- The arguments of one process and the node ids `fetch_keys` gave it. -/
structure Client where
  firstNode : ℤ
  lastNode : ℤ
  keys : List ℕ
  required : ℕ

/-- Which of the two keys of the peer a GET of the spin loop reads. -/
inductive LockRead
  | otherFlag
  | turnVar
  deriving DecidableEq

def sortNeighbours (neighbourList : List ℕ) : List ℕ :=
  neighbourList.insertionSort (· ≤ ·)

def getStatus : Reply ℤ → ℤ
  | .value status => status
  | _ => 0

def getNodeColor : Reply ℤ → ℤ
  | .null => -1
  | .nil => -1
  | .error msg => atoi msg
  | .value color => color

/-- `reply->integer` of the answer to WAIT. -/
def acknowledgedReplicas : Reply ℕ → ℕ
  | .value acks => acks
  | _ => 0

/-- `strcmp(turn_var_new->str, lock->node_name) == 0`; `none` dereferences NULL. -/
def turnIsMine (turnVar : Reply ℤ) (nodeName : ℕ) : Option Bool :=
  match turnVar with
  | .null => none
  | .nil => none
  | .error msg => some (msg = Nat.toDigits 10 nodeName)
  | .value turn => some (turn = nodeName)

/-- The condition of the spin loop, evaluated from left to right. -/
def mustWait (otherFlag turnVar : Reply ℤ) (nodeName : ℕ) : Option Bool :=
  match otherFlag with
  | .null => none
  | .nil => some false
  | .error msg => if msg = ['1'] then turnIsMine turnVar nodeName else some false
  | .value flag => if flag = 1 then turnIsMine turnVar nodeName else some false

namespace Client

variable (c : Client)

/-- The range test of `read_color_of_neighbors`, on the numeric id. -/
def Internal (nbr : ℕ) : Prop := c.firstNode ≤ nbr ∧ (nbr : ℤ) ≤ c.lastNode

instance (nbr : ℕ) : Decidable (c.Internal nbr) :=
  inferInstanceAs (Decidable (_ ∧ _))

/-- `keys[i]`; an index outside the array has no node. -/
def keyAt (i : ℤ) : Option ℕ :=
  if 0 ≤ i then c.keys[i.toNat]? else none

/-- The head of the loop of `main` at index `i`. -/
def processAt (i : ℤ) : Local :=
  if i ≤ c.lastNode then
    match c.keyAt i with
    | some v => ⟨i, v, [], [], [], .getAllNeighbours⟩
    | none => ⟨i, 0, [], [], [], .crashed⟩
  else ⟨i, 0, [], [], [], .finished⟩

/-- `main` returns early when KEYS finds nothing. -/
def start : Local :=
  if c.keys = [] then ⟨c.firstNode, 0, [], [], [], .finished⟩ else c.processAt c.firstNode

/-- The head of the loop of `read_color_of_neighbors`; past it comes the choice of
the colour. -/
def readNext (l : Local) : Local :=
  match l.todo with
  | [] =>
      match getMinimalValueNotInArray 2 (l.colors.map Prod.snd) 0 1000 with
      | some color => { l with pc := .set (.color color) false }
      | none => { l with pc := .crashed }
  | nbr :: rest =>
      if c.Internal nbr then { l with todo := rest, pc := .getNodeColor nbr }
      else { l with todo := rest, pc := .getStatus nbr }

/-- The release loop of `process_node`, and the next turn of `main` after it. -/
def releaseNext (l : Local) : Local :=
  match l.locks with
  | [] => c.processAt (l.i + 1)
  | lock :: rest => { l with locks := rest, pc := .set (.release lock) false }

/-- Where the caller of `write_with_wait` goes on. -/
def written (l : Local) : Write → Local
  | .flag lock => { l with pc := .set (.turn lock) false }
  | .turn lock => { l with pc := .spin lock false none none }
  | .color _ => { l with pc := .set .status false }
  | .status => c.releaseNext l
  | .release _ => c.releaseNext l

/-- A failed SMEMBERS leaves `neighbour_list` NULL and `neighbour_count` zero. -/
def onNeighbours (l : Local) (reply : Reply (List ℕ)) : Local :=
  match reply with
  | .value members => { l with todo := sortNeighbours members, pc := .checkBoundaryNode }
  | _ => { l with todo := [], pc := .checkBoundaryNode }

/-- `check_boundary_node` reads `reply->elements` without a test for NULL. -/
def onBoundary (l : Local) (reply : Reply (List ℕ)) : Local :=
  match reply with
  | .null => { l with pc := .crashed }
  | _ => c.readNext l

def onStatus (l : Local) (nbr : ℕ) (reply : Reply ℤ) : Local :=
  if getStatus reply = 0 then { l with pc := .set (.flag ⟨l.node, nbr⟩) false }
  else { l with pc := .getNodeColor nbr }

def onColor (l : Local) (nbr : ℕ) (reply : Reply ℤ) : Local :=
  c.readNext { l with colors := l.colors ++ [(nbr, getNodeColor reply)] }

/-- `write_with_wait` frees the reply to SET unread and gives up only on NULL. -/
def onSet (l : Local) (w : Write) (reply : Reply Unit) : Local :=
  match reply with
  | .null => c.written l w
  | _ => { l with pc := .wait w }

def onWait (l : Local) (w : Write) (reply : Reply ℕ) : Local :=
  match reply with
  | .null => c.written l w
  | reply =>
      if acknowledgedReplicas reply < c.required then { l with pc := .set w true }
      else c.written l w

/-- Both GETs of a turn of the spin loop are answered once the two replies are there. -/
def onLockReads (l : Local) (lock : ClientGraphPetersonLock) (inLoop : Bool)
    (otherFlag turnVar : Option (Reply ℤ)) : Local :=
  match otherFlag, turnVar with
  | some flag, some turn =>
      match mustWait flag turn lock.nodeName with
      | some true => { l with pc := .spin lock true none none }
      | some false => { l with locks := l.locks ++ [lock], pc := .getNodeColor lock.nbr }
      | none => { l with pc := .crashed }
  | _, _ => { l with pc := .spin lock inLoop otherFlag turnVar }

end Client

/-- The key and the value of a SET sent while `node` is processed. -/
def Write.command (node : ℕ) : Write → Key × ℤ
  | .flag lock => (lock.lockKey1, 1)
  | .turn lock => (lock.turnKey, lock.nodeName)
  | .color value => (.color node, value)
  | .status => (.status node, 1)
  | .release lock => (lock.lockKey1, 0)

end DistributedColoring

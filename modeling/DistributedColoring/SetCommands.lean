import DistributedColoring.SetType
import Mathlib.Algebra.BigOperators.Group.Finset.Basic
import Mathlib.Data.Finset.SymmDiff
import Mathlib.Logic.Function.Basic

set_option autoImplicit false

/- t_set.cpp: SADD, SREM, SMOVE, SISMEMBER, SMISMEMBER and SCARD on a database, and the sets of
strings they are about. A failed assertion is `none`. -/
namespace KeyDB

open CText

/-- Requests with the number of arguments the command table asks for. -/
inductive SetRequest where
  | sadd (key value : Text) (more : List Text)
  | srem (key : Text) (values : List Text)
  | smove (src dst ele : Text)
  | sismember (key ele : Text)
  | smismember (key : Text) (eles : List Text)
  | scard (key : Text)

inductive SetReply where
  | number (n : ℕ)
  | array (items : List ℕ)
  | wrongType
deriving DecidableEq

/-- An object of the database, a set or something else. -/
inductive Stored where
  | set (s : SetObj)
  | other

structure SetServer where
  db : Text → Option Stored
  dirty : ℕ

namespace SetServer

def put (m : SetServer) (key : Text) (s : SetObj) : SetServer :=
  { m with db := Function.update m.db key (some (.set s)) }

def dbAdd (m : SetServer) (key : Text) (s : SetObj) : Option SetServer :=
  match m.db key with
  | none => some (m.put key s)
  | some _ => none

def dbDelete (m : SetServer) (key : Text) : SetServer :=
  { m with db := Function.update m.db key none }

/-- The loop of `saddCommand`. -/
def addAll (maxEntries : ℕ) (s : SetObj) (added : ℕ) : List Text → Option (SetObj × ℕ)
  | [] => some (s, added)
  | value :: values =>
      (s.setTypeAdd maxEntries value).bind fun (s, new) =>
        addAll maxEntries s (if new then added + 1 else added) values

/-- `saddCommand` with the set at hand. -/
def addInto (maxEntries : ℕ) (m : SetServer) (key : Text) (s : SetObj) (values : List Text) :
    Option (SetServer × SetReply) :=
  (addAll maxEntries s 0 values).map fun (s, added) =>
    ({ m.put key s with dirty := m.dirty + added }, .number added)

def saddCommand (maxEntries : ℕ) (m : SetServer) (key value : Text) (more : List Text) :
    Option (SetServer × SetReply) :=
  match m.db key with
  | some .other => some (m, .wrongType)
  | some (.set s) => m.addInto maxEntries key s (value :: more)
  | none =>
      (m.dbAdd key (.setTypeCreate value)).bind fun m =>
        m.addInto maxEntries key (.setTypeCreate value) (value :: more)

/-- The loop of `sremCommand`: the set, `deleted` and `keyremoved`. -/
def removeAll (s : SetObj) (deleted : ℕ) : List Text → SetObj × ℕ × Bool
  | [] => (s, deleted, false)
  | value :: values =>
      match s.setTypeRemove value with
      | (s, true) =>
          if s.setTypeSize = 0 then (s, deleted + 1, true) else removeAll s (deleted + 1) values
      | (s, false) => removeAll s deleted values

def sremCommand (m : SetServer) (key : Text) (values : List Text) : SetServer × SetReply :=
  match m.db key with
  | none => (m, .number 0)
  | some .other => (m, .wrongType)
  | some (.set s) =>
      let (s, deleted, keyremoved) := removeAll s 0 values
      let m := if keyremoved then m.dbDelete key else m.put key s
      ({ m with dirty := m.dirty + deleted }, .number deleted)

/-- An empty set is removed from the database. -/
def putOrDelete (m : SetServer) (key : Text) (s : SetObj) : SetServer :=
  if s.setTypeSize = 0 then m.dbDelete key else m.put key s

/-- The end of `smoveCommand`, with the destination at hand. -/
def addMoved (maxEntries : ℕ) (m : SetServer) (dst : Text) (d : SetObj) (ele : Text) :
    Option (SetServer × SetReply) :=
  (d.setTypeAdd maxEntries ele).map fun (d, new) =>
    ({ m.put dst d with dirty := if new then m.dirty + 1 + 1 else m.dirty + 1 }, .number 1)

/-- `smoveCommand` after its checks; `dstset` is `none` if there is no such key. -/
def moveInto (maxEntries : ℕ) (m : SetServer) (src : Text) (srcset : SetObj) (dst : Text)
    (dstset : Option SetObj) (ele : Text) : Option (SetServer × SetReply) :=
  if src = dst then
    some (m, .number (if srcset.setTypeIsMember ele then 1 else 0))
  else
    match srcset.setTypeRemove ele with
    | (s, false) => some (m.put src s, .number 0)
    | (s, true) =>
        let m := m.putOrDelete src s
        match dstset with
        | some d => m.addMoved maxEntries dst d ele
        | none =>
            (m.dbAdd dst (.setTypeCreate ele)).bind fun m =>
              m.addMoved maxEntries dst (.setTypeCreate ele) ele

def smoveCommand (maxEntries : ℕ) (m : SetServer) (src dst ele : Text) :
    Option (SetServer × SetReply) :=
  match m.db src with
  | none => some (m, .number 0)
  | some .other => some (m, .wrongType)
  | some (.set s) =>
      match m.db dst with
      | some .other => some (m, .wrongType)
      | some (.set d) => m.moveInto maxEntries src s dst (some d) ele
      | none => m.moveInto maxEntries src s dst none ele

def sismemberCommand (m : SetServer) (key ele : Text) : SetReply :=
  match m.db key with
  | none => .number 0
  | some .other => .wrongType
  | some (.set s) => .number (if s.setTypeIsMember ele then 1 else 0)

def smismemberCommand (m : SetServer) (key : Text) (eles : List Text) : SetReply :=
  match m.db key with
  | none => .array (eles.map fun _ => 0)
  | some .other => .wrongType
  | some (.set s) => .array (eles.map fun ele => if s.setTypeIsMember ele then 1 else 0)

def scardCommand (m : SetServer) (key : Text) : SetReply :=
  match m.db key with
  | none => .number 0
  | some .other => .wrongType
  | some (.set s) => .number s.setTypeSize

def step (maxEntries : ℕ) (m : SetServer) : SetRequest → Option (SetServer × SetReply)
  | .sadd key value more => m.saddCommand maxEntries key value more
  | .srem key values => some (m.sremCommand key values)
  | .smove src dst ele => m.smoveCommand maxEntries src dst ele
  | .sismember key ele => some (m, m.sismemberCommand key ele)
  | .smismember key eles => some (m, m.smismemberCommand key eles)
  | .scard key => some (m, m.scardCommand key)

/-- Requests one after the other, with their replies. -/
def serveAll (maxEntries : ℕ) (m : SetServer) : List SetRequest → Option (SetServer × List SetReply)
  | [] => some (m, [])
  | r :: rs =>
      (m.step maxEntries r).bind fun (m, reply) =>
        (serveAll maxEntries m rs).map fun (m, replies) => (m, reply :: replies)

def empty : SetServer := ⟨fun _ => none, 0⟩

end SetServer

/-- What the commands are for: every key names a set of strings, most of them the empty one,
unless it is the key of an object of another type. -/
abbrev Sets := Text → Option (Finset Text)

namespace Sets

variable (m : Sets)

def onSet (key : Text) (served : Finset Text → Sets × SetReply) : Sets × SetReply :=
  match m key with
  | some s => served s
  | none => (m, .wrongType)

def holds (s : Finset Text) (ele : Text) : ℕ := if ele ∈ s then 1 else 0

def serve : SetRequest → Sets × SetReply
  | .sadd key value more => m.onSet key fun s =>
      (Function.update m key (some (s ∪ (value :: more).toFinset)),
        .number ((value :: more).toFinset \ s).card)
  | .srem key values => m.onSet key fun s =>
      (Function.update m key (some (s \ values.toFinset)), .number (s ∩ values.toFinset).card)
  | .smove src dst ele => m.onSet src fun s =>
      if s = ∅ then (m, .number 0)
      else m.onSet dst fun d =>
        if src = dst then (m, .number (holds s ele))
        else if ele ∈ s then
          (Function.update (Function.update m src (some (s.erase ele))) dst (some (insert ele d)),
            .number 1)
        else (m, .number 0)
  | .sismember key ele => m.onSet key fun s => (m, .number (holds s ele))
  | .smismember key eles => m.onSet key fun s => (m, .array (eles.map (holds s)))
  | .scard key => m.onSet key fun s => (m, .number s.card)

def serveAll : Sets → List SetRequest → Sets × List SetReply
  | m, [] => (m, [])
  | m, r :: rs =>
      let (m, reply) := m.serve r
      let (m, replies) := serveAll m rs
      (m, reply :: replies)

/-- How many strings went into or out of the sets of these keys. -/
def changed (m m' : Sets) (keys : Finset Text) : ℕ :=
  ∑ key ∈ keys, (symmDiff ((m key).getD ∅) ((m' key).getD ∅)).card

end Sets

namespace SetRequest

/-- The keys a request may change. -/
def keys : SetRequest → Finset Text
  | .sadd key _ _ => {key}
  | .srem key _ => {key}
  | .smove src dst _ => {src, dst}
  | .sismember _ _ => ∅
  | .smismember _ _ => ∅
  | .scard _ => ∅

end SetRequest

namespace SetServer

/-- The sets a database shows. -/
def view (m : SetServer) : Sets := fun key =>
  match m.db key with
  | none => some ∅
  | some (.set s) => some s.members
  | some .other => none

/-- Stored sets are well formed, and none of them is empty. -/
def Valid (m : SetServer) : Prop :=
  ∀ ⦃key s⦄, m.db key = some (.set s) → s.Valid ∧ s.members.Nonempty

theorem card_new_cons (s : Finset Text) (value : Text) (values : List Text) :
    ((value :: values).toFinset \ s).card =
      (if value ∈ s then 0 else 1) + (values.toFinset \ insert value s).card := by
  rw [List.toFinset_cons]
  by_cases there : value ∈ s
  · rw [if_pos there, Finset.insert_sdiff_of_mem _ there, Finset.insert_eq_of_mem there, zero_add]
  · have apart : insert value values.toFinset \ s =
        insert value (values.toFinset \ insert value s) := by
      ext x
      by_cases same : x = value
      · simp [same, there]
      · simp [same]
    rw [if_neg there, apart, Finset.card_insert_of_notMem (by simp), add_comm]

theorem card_removed_cons (s : Finset Text) (value : Text) (values : List Text) :
    (s ∩ (value :: values).toFinset).card =
      (if value ∈ s then 1 else 0) + (s.erase value ∩ values.toFinset).card := by
  rw [List.toFinset_cons]
  by_cases there : value ∈ s
  · have apart : s ∩ insert value values.toFinset =
        insert value (s.erase value ∩ values.toFinset) := by
      ext x
      by_cases same : x = value
      · simp [same, there]
      · simp [same]
    rw [if_pos there, apart, Finset.card_insert_of_notMem (by simp), add_comm]
  · rw [if_neg there, Finset.inter_insert_of_notMem there, Finset.erase_eq_of_notMem there,
      zero_add]

/-- The loop of SADD inserts the strings and counts the new ones. -/
theorem addAll_spec {maxEntries : ℕ} (limited : maxEntries < 2 ^ 29) (values : List Text)
    {s : SetObj} (valid : s.Valid) (added : ℕ) :
    ∃ s' : SetObj,
      addAll maxEntries s added values =
          some (s', added + (values.toFinset \ s.members).card) ∧
        s'.Valid ∧ s'.members = s.members ∪ values.toFinset := by
  induction values generalizing s added with
  | nil => exact ⟨s, by simp [addAll], valid, by simp⟩
  | cons value values ih =>
      obtain ⟨s₁, first, valid₁, members₁⟩ := SetObj.setTypeAdd_spec limited valid value
      obtain ⟨s₂, rest, valid₂, members₂⟩ :=
        ih valid₁ (if value ∉ s.members then added + 1 else added)
      refine ⟨s₂, ?_, valid₂, ?_⟩
      · rw [addAll, first, Option.bind_some]
        simp only [decide_eq_true_eq]
        rw [rest, card_new_cons, members₁]
        by_cases there : value ∈ s.members
        · simp [there]
        · simp [there, add_assoc]
      · rw [members₂, members₁, List.toFinset_cons, Finset.insert_union, Finset.union_insert]

/-- The loop of SREM stops early only when nothing is left to remove. -/
theorem removeAll_spec (values : List Text) {s : SetObj} (valid : s.Valid)
    (filled : s.members.Nonempty) (deleted : ℕ) :
    ∃ s' : SetObj, ∃ keyremoved : Bool,
      removeAll s deleted values =
          (s', deleted + (s.members ∩ values.toFinset).card, keyremoved) ∧
        s'.Valid ∧ s'.members = s.members \ values.toFinset ∧
          (keyremoved = true ↔ s'.members = ∅) := by
  induction values generalizing s deleted with
  | nil =>
      refine ⟨s, false, by simp [removeAll], valid, by simp, ?_⟩
      simp [filled.ne_empty]
  | cons value values ih =>
      obtain ⟨valid₁, members₁, there⟩ := SetObj.setTypeRemove_spec valid value
      have rest : s.members \ (value :: values).toFinset =
          s.members.erase value \ values.toFinset := by
        rw [List.toFinset_cons, Finset.sdiff_insert, Finset.erase_sdiff_comm]
      rw [removeAll, card_removed_cons, rest]
      rcases removed : s.setTypeRemove value with ⟨s₁, success⟩
      rw [removed] at valid₁ members₁ there
      simp only at valid₁ members₁ there ⊢
      rw [← members₁]
      cases success with
      | false =>
          have absent : value ∉ s.members := fun member => by simpa using there.mpr member
          rw [if_neg absent, zero_add]
          refine ih valid₁ ?_ deleted
          rwa [members₁, Finset.erase_eq_of_notMem absent]
      | true =>
          rw [if_pos (there.mp rfl), ← add_assoc]
          simp only [SetObj.size_eq_card valid₁, Finset.card_eq_zero]
          split
          · rename_i emptied
            exact ⟨s₁, true, by simp [emptied], valid₁, by simp [emptied], by simp [emptied]⟩
          · rename_i remains
            exact ih valid₁ (Finset.nonempty_iff_ne_empty.mpr remains) (deleted + 1)

variable {m : SetServer} {key : Text} {s : SetObj}

theorem view_none (absent : m.db key = none) : m.view key = some ∅ := by
  rw [view, absent]

theorem view_set (there : m.db key = some (.set s)) : m.view key = some s.members := by
  rw [view, there]

theorem view_other (there : m.db key = some .other) : m.view key = none := by
  rw [view, there]

@[simp] theorem view_dirty (m : SetServer) (n : ℕ) : view { m with dirty := n } = m.view := rfl

@[simp] theorem view_put (m : SetServer) (key : Text) (s : SetObj) :
    (m.put key s).view = Function.update m.view key (some s.members) := by
  funext k
  by_cases same : k = key
  · subst same
    simp [view, put]
  · simp [view, put, same]

@[simp] theorem view_dbDelete (m : SetServer) (key : Text) :
    (m.dbDelete key).view = Function.update m.view key (some ∅) := by
  funext k
  by_cases same : k = key
  · subst same
    simp [view, dbDelete]
  · simp [view, dbDelete, same]

theorem dbAdd_eq (absent : m.db key = none) : m.dbAdd key s = some (m.put key s) := by
  rw [dbAdd, absent]

@[simp] theorem put_put (m : SetServer) (key : Text) (s s' : SetObj) :
    (m.put key s).put key s' = m.put key s' := by
  simp [put]

@[simp] theorem dirty_put (m : SetServer) (key : Text) (s : SetObj) :
    (m.put key s).dirty = m.dirty := rfl

@[simp] theorem dirty_dbDelete (m : SetServer) (key : Text) :
    (m.dbDelete key).dirty = m.dirty := rfl

theorem Valid.put (valid : m.Valid) (formed : s.Valid) (filled : s.members.Nonempty) :
    (m.put key s).Valid := by
  intro k s' there
  by_cases same : k = key
  · subst same
    simp only [SetServer.put, Function.update_self, Option.some.injEq, Stored.set.injEq] at there
    exact there ▸ ⟨formed, filled⟩
  · simp only [SetServer.put, Function.update_of_ne same] at there
    exact valid there

theorem Valid.dbDelete (valid : m.Valid) (key : Text) : (m.dbDelete key).Valid := by
  intro k s' there
  by_cases same : k = key
  · subst same
    simp [SetServer.dbDelete] at there
  · simp only [SetServer.dbDelete, Function.update_of_ne same] at there
    exact valid there

theorem empty_valid : empty.Valid := by
  intro key s there
  cases there

end SetServer

namespace Sets

variable {m : Sets} {key : Text} {s t : Finset Text}

theorem onSet_some (there : m key = some s) (served : Finset Text → Sets × SetReply) :
    m.onSet key served = served s := by
  rw [onSet, there]

theorem onSet_none (there : m key = none) (served : Finset Text → Sets × SetReply) :
    m.onSet key served = (m, .wrongType) := by
  rw [onSet, there]

@[simp] theorem changed_self (m : Sets) (keys : Finset Text) : changed m m keys = 0 := by
  simp [changed]

theorem changed_update (there : m key = some s) :
    changed m (Function.update m key (some t)) {key} = (symmDiff s t).card := by
  simp [changed, there]

theorem changed_update_two {src dst : Text} {s' t' : Finset Text} (apart : src ≠ dst)
    (atSrc : m src = some s) (atDst : m dst = some t) :
    changed m (Function.update (Function.update m src (some s')) dst (some t')) {src, dst} =
      (symmDiff s s').card + (symmDiff t t').card := by
  rw [changed, Finset.sum_pair apart]
  simp [atSrc, atDst, Function.update_of_ne apart]

theorem symmDiff_union (s t : Finset Text) : symmDiff s (s ∪ t) = t \ s := by
  ext x
  simp only [Finset.mem_symmDiff, Finset.mem_union, Finset.mem_sdiff]
  tauto

theorem symmDiff_sdiff (s t : Finset Text) : symmDiff s (s \ t) = s ∩ t := by
  ext x
  simp only [Finset.mem_symmDiff, Finset.mem_inter, Finset.mem_sdiff]
  tauto

theorem card_symmDiff_erase {ele : Text} (member : ele ∈ s) :
    (symmDiff s (s.erase ele)).card = 1 := by
  rw [← Finset.sdiff_singleton_eq_erase, symmDiff_sdiff, Finset.inter_singleton_of_mem member,
    Finset.card_singleton]

theorem card_symmDiff_insert (s : Finset Text) (ele : Text) :
    (symmDiff s (insert ele s)).card = if ele ∉ s then 1 else 0 := by
  rw [Finset.insert_eq, Finset.union_comm, symmDiff_union]
  split
  · rename_i absent
    rw [Finset.sdiff_eq_self_of_disjoint (Finset.disjoint_singleton_left.mpr absent),
      Finset.card_singleton]
  · rename_i there
    rw [Finset.sdiff_eq_empty_iff_subset.mpr (by simpa using there), Finset.card_empty]

theorem serve_outside (m : Sets) (r : SetRequest) (outside : key ∉ r.keys) :
    (m.serve r).1 key = m key := by
  cases r <;> simp only [serve, onSet] <;> (repeat' split) <;> simp_all [SetRequest.keys]

theorem isSome_update (there : (m key).isSome) (k : Text) :
    (Function.update m key (some t) k).isSome = (m k).isSome := by
  by_cases same : k = key
  · subst same
    simp [there]
  · rw [Function.update_of_ne same]

/-- A key keeps its type. -/
theorem isSome_serve (m : Sets) (r : SetRequest) (k : Text) :
    ((m.serve r).1 k).isSome = (m k).isSome := by
  cases r <;> simp only [serve, onSet] <;> (repeat' split) <;> simp_all [isSome_update]

theorem changed_serve_eq_zero (m : Sets) (r : SetRequest) :
    changed m (m.serve r).1 r.keys = 0 ↔ (m.serve r).1 = m := by
  constructor
  · intro none
    funext key
    by_cases inside : key ∈ r.keys
    · have same := Finset.sum_eq_zero_iff.mp none key inside
      rw [Finset.card_eq_zero, ← Finset.bot_eq_empty, symmDiff_eq_bot] at same
      have typed := isSome_serve m r key
      cases before : m key <;> cases after : (m.serve r).1 key <;> simp_all
    · exact serve_outside m r inside
  · intro same
    rw [same, changed_self]

end Sets

namespace SetServer

variable {m : SetServer} {key : Text} {s : SetObj}

/-- A request did what it should: the server still is well formed, the sets and the reply are
the expected ones, and `dirty` has grown by the number of changes. -/
structure Serves (m : SetServer) (r : SetRequest) (result : SetServer × SetReply) : Prop where
  valid : result.1.Valid
  served : (result.1.view, result.2) = m.view.serve r
  dirty : result.1.dirty = m.dirty + Sets.changed m.view result.1.view r.keys

/-- A request that changes nothing. -/
theorem Serves.unchanged {r : SetRequest} {reply : SetReply} (valid : m.Valid)
    (served : m.view.serve r = (m.view, reply)) : m.Serves r (m, reply) :=
  ⟨valid, served.symm, by simp⟩

theorem addInto_put (maxEntries : ℕ) (m : SetServer) (key : Text) (s₀ s : SetObj)
    (values : List Text) :
    (m.put key s₀).addInto maxEntries key s values = m.addInto maxEntries key s values := by
  simp [addInto]

theorem addInto_serves {maxEntries : ℕ} (limited : maxEntries < 2 ^ 29) (valid : m.Valid)
    (formed : s.Valid) (shown : m.view key = some s.members) (value : Text) (more : List Text) :
    ∃ result, m.addInto maxEntries key s (value :: more) = some result ∧
      m.Serves (.sadd key value more) result := by
  obtain ⟨s', done, formed', members⟩ := addAll_spec limited (value :: more) formed 0
  refine ⟨_, by rw [addInto, done, Option.map_some], ?_, ?_, ?_⟩
  · have filled : s'.members.Nonempty := ⟨value, by simp [members]⟩
    exact valid.put formed' filled
  · simp only [view_dirty, view_put, zero_add, members, Sets.serve, Sets.onSet_some shown]
  · simp only [view_dirty, view_put, zero_add, members, SetRequest.keys,
      Sets.changed_update shown, Sets.symmDiff_union]

theorem saddCommand_serves {maxEntries : ℕ} (limited : maxEntries < 2 ^ 29) (valid : m.Valid)
    (key value : Text) (more : List Text) :
    ∃ result, m.saddCommand maxEntries key value more = some result ∧
      m.Serves (.sadd key value more) result := by
  unfold saddCommand
  rcases there : m.db key with _ | (s | _)
  · obtain ⟨formed, bare⟩ := SetObj.setTypeCreate_valid value
    simp only [dbAdd_eq there, Option.bind_some, addInto_put]
    refine addInto_serves limited valid formed ?_ value more
    rw [view_none there, bare]
  · exact addInto_serves limited valid (valid there).1 (view_set there) value more
  · refine ⟨_, rfl, .unchanged valid ?_⟩
    rw [Sets.serve, Sets.onSet_none (view_other there)]

theorem sremCommand_serves (valid : m.Valid) (key : Text) (values : List Text) :
    m.Serves (.srem key values) (m.sremCommand key values) := by
  unfold sremCommand
  rcases there : m.db key with _ | (s | _)
  · refine .unchanged valid ?_
    rw [Sets.serve, Sets.onSet_some (view_none there)]
    simp [← view_none there]
  · obtain ⟨formed, filled⟩ := valid there
    obtain ⟨s', keyremoved, done, formed', members, emptied⟩ :=
      removeAll_spec values formed filled 0
    have shown := view_set there
    simp only [done, zero_add]
    cases keyremoved with
    | true =>
        have gone := emptied.mp rfl
        rw [members] at gone
        refine ⟨valid.dbDelete key, ?_, ?_⟩
        · simp [Sets.serve, Sets.onSet_some shown, gone]
        · simp [SetRequest.keys, Sets.changed_update shown, ← gone, Sets.symmDiff_sdiff]
    | false =>
        have remains : s'.members.Nonempty :=
          Finset.nonempty_iff_ne_empty.mpr fun gone => by simpa using emptied.mpr gone
        refine ⟨valid.put formed' remains, ?_, ?_⟩
        · simp [Sets.serve, Sets.onSet_some shown, members]
        · simp [SetRequest.keys, Sets.changed_update shown, members, Sets.symmDiff_sdiff]
  · refine .unchanged valid ?_
    rw [Sets.serve, Sets.onSet_none (view_other there)]

theorem putOrDelete_spec (valid : m.Valid) (formed : s.Valid) (key : Text) :
    (m.putOrDelete key s).Valid ∧
      (m.putOrDelete key s).view = Function.update m.view key (some s.members) ∧
        (m.putOrDelete key s).dirty = m.dirty ∧
          ∀ k, k ≠ key → (m.putOrDelete key s).db k = m.db k := by
  unfold putOrDelete
  simp only [SetObj.size_eq_card formed, Finset.card_eq_zero]
  split
  · rename_i emptied
    refine ⟨valid.dbDelete key, by rw [view_dbDelete, emptied], rfl, fun k apart => ?_⟩
    exact Function.update_of_ne apart ..
  · rename_i remains
    refine ⟨valid.put formed (Finset.nonempty_iff_ne_empty.mpr remains), view_put .., rfl,
      fun k apart => ?_⟩
    exact Function.update_of_ne apart ..

theorem addMoved_put (maxEntries : ℕ) (m : SetServer) (dst : Text) (d₀ d : SetObj) (ele : Text) :
    (m.put dst d₀).addMoved maxEntries dst d ele = m.addMoved maxEntries dst d ele := by
  simp [addMoved]

section Move

variable {src dst ele : Text} {d : SetObj}

/-- The string is out of the source, in `m₁`, and goes into the destination. -/
theorem addMoved_serves {maxEntries : ℕ} (limited : maxEntries < 2 ^ 29) {m₁ : SetServer}
    (apart : src ≠ dst) (atSrc : m.view src = some s.members) (member : ele ∈ s.members)
    (atDst : m.view dst = some d.members) (formed : d.Valid) (valid : m₁.Valid)
    (taken : m₁.view = Function.update m.view src (some (s.members.erase ele)))
    (dirty : m₁.dirty = m.dirty) :
    ∃ result, m₁.addMoved maxEntries dst d ele = some result ∧
      m.Serves (.smove src dst ele) result := by
  obtain ⟨d', done, formed', members⟩ := SetObj.setTypeAdd_spec limited formed ele
  refine ⟨_, by rw [addMoved, done, Option.map_some], ?_, ?_, ?_⟩
  · exact valid.put formed' ⟨ele, by simp [members]⟩
  · simp only [view_dirty, view_put, taken, members, Sets.serve, Sets.onSet_some atSrc,
      Sets.onSet_some atDst, if_neg (Finset.ne_empty_of_mem member), if_neg apart, if_pos member]
  · simp only [view_dirty, view_put, taken, members, SetRequest.keys,
      Sets.changed_update_two apart atSrc atDst, Sets.card_symmDiff_erase member,
      Sets.card_symmDiff_insert, dirty, decide_eq_true_eq]
    split <;> rfl

theorem moveInto_serves {maxEntries : ℕ} (limited : maxEntries < 2 ^ 29) (valid : m.Valid)
    (atSrc : m.db src = some (.set s)) (dstset : Option SetObj)
    (atDst : m.db dst = dstset.map .set) :
    ∃ result, m.moveInto maxEntries src s dst dstset ele = some result ∧
      m.Serves (.smove src dst ele) result := by
  obtain ⟨formed, filled⟩ := valid atSrc
  have shown := view_set atSrc
  obtain ⟨t, shownDst⟩ : ∃ t, m.view dst = some t := by
    cases dstset with
    | none => exact ⟨_, view_none atDst⟩
    | some d => exact ⟨_, view_set atDst⟩
  unfold moveInto
  split
  · rename_i same
    refine ⟨_, rfl, .unchanged valid ?_⟩
    simp only [Sets.serve, Sets.onSet_some shown, Sets.onSet_some shownDst,
      if_neg filled.ne_empty, if_pos same, Sets.holds, SetObj.setTypeIsMember_iff formed]
  · rename_i apart
    obtain ⟨formed', members, there⟩ := SetObj.setTypeRemove_spec formed ele
    rcases removed : s.setTypeRemove ele with ⟨s', success⟩
    rw [removed] at formed' members there
    simp only at formed' members there ⊢
    cases success with
    | false =>
        have absent : ele ∉ s.members := fun member => by simpa using there.mpr member
        rw [Finset.erase_eq_of_notMem absent] at members
        have same : (m.put src s').view = m.view := by
          rw [view_put, members, ← shown, Function.update_eq_self]
        refine ⟨_, rfl, valid.put formed' (members ▸ filled), ?_, ?_⟩
        · simp only [same, Sets.serve, Sets.onSet_some shown, Sets.onSet_some shownDst,
            if_neg filled.ne_empty, if_neg apart, if_neg absent]
        · simp only [same, Sets.changed_self, dirty_put, add_zero]
    | true =>
        obtain ⟨valid₁, view₁, dirty₁, others⟩ := putOrDelete_spec valid formed' src
        rw [members] at view₁
        have free := (others dst (Ne.symm apart)).trans atDst
        cases dstset with
        | none =>
            obtain ⟨created, bare⟩ := SetObj.setTypeCreate_valid ele
            simp only [dbAdd_eq free, Option.bind_some, addMoved_put]
            refine addMoved_serves limited apart shown (there.mp rfl) ?_ created valid₁ view₁
              dirty₁
            rw [view_none atDst, bare]
        | some d =>
            exact addMoved_serves limited apart shown (there.mp rfl) (view_set atDst)
              (valid atDst).1 valid₁ view₁ dirty₁

theorem smoveCommand_serves {maxEntries : ℕ} (limited : maxEntries < 2 ^ 29) (valid : m.Valid)
    (src dst ele : Text) :
    ∃ result, m.smoveCommand maxEntries src dst ele = some result ∧
      m.Serves (.smove src dst ele) result := by
  unfold smoveCommand
  rcases atSrc : m.db src with _ | (s | _)
  · refine ⟨_, rfl, .unchanged valid ?_⟩
    rw [Sets.serve, Sets.onSet_some (view_none atSrc), if_pos rfl]
  · rcases atDst : m.db dst with _ | (d | _)
    · exact moveInto_serves limited valid atSrc none atDst
    · exact moveInto_serves limited valid atSrc (some d) atDst
    · refine ⟨_, rfl, .unchanged valid ?_⟩
      rw [Sets.serve, Sets.onSet_some (view_set atSrc), if_neg (valid atSrc).2.ne_empty,
        Sets.onSet_none (view_other atDst)]
  · refine ⟨_, rfl, .unchanged valid ?_⟩
    rw [Sets.serve, Sets.onSet_none (view_other atSrc)]

end Move

theorem sismemberCommand_eq (valid : m.Valid) (key ele : Text) :
    m.view.serve (.sismember key ele) = (m.view, m.sismemberCommand key ele) := by
  rw [sismemberCommand, Sets.serve]
  rcases there : m.db key with _ | (s | _)
  · rw [Sets.onSet_some (view_none there)]
    rfl
  · simp only [Sets.onSet_some (view_set there), Sets.holds,
      SetObj.setTypeIsMember_iff (valid there).1]
  · rw [Sets.onSet_none (view_other there)]

theorem smismemberCommand_eq (valid : m.Valid) (key : Text) (eles : List Text) :
    m.view.serve (.smismember key eles) = (m.view, m.smismemberCommand key eles) := by
  rw [smismemberCommand, Sets.serve]
  rcases there : m.db key with _ | (s | _)
  · rw [Sets.onSet_some (view_none there)]
    rfl
  · rw [Sets.onSet_some (view_set there)]
    have each : Sets.holds s.members = fun ele => if s.setTypeIsMember ele then 1 else 0 := by
      funext ele
      simp only [Sets.holds, SetObj.setTypeIsMember_iff (valid there).1]
    rw [each]
  · rw [Sets.onSet_none (view_other there)]

theorem scardCommand_eq (valid : m.Valid) (key : Text) :
    m.view.serve (.scard key) = (m.view, m.scardCommand key) := by
  rw [scardCommand, Sets.serve]
  rcases there : m.db key with _ | (s | _)
  · rw [Sets.onSet_some (view_none there)]
    rfl
  · simp only [Sets.onSet_some (view_set there), SetObj.size_eq_card (valid there).1]
  · rw [Sets.onSet_none (view_other there)]

/-- Every request is served, and no assertion fails. -/
theorem step_serves {maxEntries : ℕ} (limited : maxEntries < 2 ^ 29) (valid : m.Valid)
    (r : SetRequest) :
    ∃ result, m.step maxEntries r = some result ∧ m.Serves r result := by
  cases r with
  | sadd key value more => exact saddCommand_serves limited valid key value more
  | srem key values => exact ⟨_, rfl, sremCommand_serves valid key values⟩
  | smove src dst ele => exact smoveCommand_serves limited valid src dst ele
  | sismember key ele => exact ⟨_, rfl, .unchanged valid (sismemberCommand_eq valid key ele)⟩
  | smismember key eles => exact ⟨_, rfl, .unchanged valid (smismemberCommand_eq valid key eles)⟩
  | scard key => exact ⟨_, rfl, .unchanged valid (scardCommand_eq valid key)⟩

/-- Whatever the encodings are and whenever they change, clients see plain sets: no assertion
fails, the replies and the sets are the expected ones, and no empty set is left behind. The
limit keeps intsets so small that their tails can be moved. -/
theorem set_commands_refine (maxEntries : ℕ) (limited : maxEntries < 2 ^ 29) (m : SetServer)
    (valid : m.Valid) (requests : List SetRequest) :
    ∃ m' : SetServer,
      m.serveAll maxEntries requests = some (m', (m.view.serveAll requests).2) ∧
        m'.view = (m.view.serveAll requests).1 ∧ m'.Valid := by
  induction requests generalizing m with
  | nil => exact ⟨m, rfl, rfl, valid⟩
  | cons r rs ih =>
      obtain ⟨⟨m₁, reply⟩, done, serves⟩ := step_serves limited valid r
      obtain ⟨m₂, rest, view₂, valid₂⟩ := ih m₁ serves.valid
      have served : m.view.serve r = (m₁.view, reply) := serves.served.symm
      refine ⟨m₂, ?_, ?_, valid₂⟩
      · rw [serveAll, done, Option.bind_some]
        simp only [rest, Option.map_some, Sets.serveAll, served]
      · rw [view₂, Sets.serveAll, served]

/-- A set that grows out of its intset, with a set for the number that is moved. -/
def growingRequests : List SetRequest :=
  [.sadd "a".toList "1".toList ["2".toList, "1".toList], .sadd "a".toList "x".toList [],
    .smove "a".toList "b".toList "2".toList, .srem "b".toList ["2".toList, "3".toList],
    .scard "b".toList, .smismember "a".toList ["1".toList, "2".toList, "x".toList]]

theorem growing_requests_refine :
    ∃ m' : SetServer,
      empty.serveAll 512 growingRequests =
          some (m', [.number 2, .number 1, .number 1, .number 1, .number 0, .array [1, 0, 1]]) ∧
        m'.view "b".toList = some ∅ ∧ m'.Valid := by
  obtain ⟨m', done, shown, valid⟩ := set_commands_refine 512 (by decide) empty empty_valid
    growingRequests
  refine ⟨m', done.trans ?_, ?_, valid⟩
  · congr
  · rw [shown]
    decide

/-- `dirty` grows by the number of strings that went into or out of a set, so it shows exactly
the requests that have changed one. -/
theorem dirty_counts_changes (maxEntries : ℕ) (limited : maxEntries < 2 ^ 29) (m : SetServer)
    (valid : m.Valid) (r : SetRequest) :
    ∃ result, m.step maxEntries r = some result ∧
      result.1.dirty = m.dirty + Sets.changed m.view result.1.view r.keys ∧
        (result.1.dirty = m.dirty ↔ result.1.view = m.view) := by
  obtain ⟨result, done, serves⟩ := step_serves limited valid r
  refine ⟨result, done, serves.dirty, ?_⟩
  have served : result.1.view = (m.view.serve r).1 := congrArg Prod.fst serves.served
  rw [serves.dirty, served, Nat.add_eq_left]
  exact Sets.changed_serve_eq_zero m.view r

theorem dirty_counts_one_add :
    ∃ result, empty.step 512 (.sadd "a".toList "1".toList []) = some result ∧
      result.1.dirty = 0 + Sets.changed empty.view result.1.view {"a".toList} ∧
        (result.1.dirty = 0 ↔ result.1.view = empty.view) :=
  dirty_counts_changes 512 (by decide) empty empty_valid (.sadd "a".toList "1".toList [])

end SetServer

end KeyDB

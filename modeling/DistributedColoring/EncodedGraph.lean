import DistributedColoring.AddGraph
import DistributedColoring.SetType

set_option autoImplicit false

/- `add_graph` in custom.cpp on the set objects of t_set.cpp. Loading a file over the encodings
shows the sets that `Loading` has as finite sets. -/
namespace KeyDB

open CText DistributedColoring

/-- What a key holds, sets with their encoding. -/
inductive EncodedObj where
  | string (value : Text)
  | set (s : SetObj)
  | other

structure EncodedLoading where
  db : Text → Option EncodedObj
  replies : List AddGraphReply
  dirty : ℕ

namespace EncodedLoading

variable (maxEntries : ℕ) (e : EncodedLoading)

def addReply (reply : AddGraphReply) : EncodedLoading :=
  { e with replies := e.replies ++ [reply] }

def setKey (key : Text) (obj : EncodedObj) : EncodedLoading :=
  { e with db := Function.update e.db key (some obj) }

def dbAdd (key : Text) (obj : EncodedObj) : Option EncodedLoading :=
  match e.db key with
  | none => some (e.setKey key obj)
  | some _ => none

/-- `setTypeAdd` on the set of a key, with the `dirty` that its caller counts. -/
def addMember (key value : Text) : Option EncodedLoading :=
  match e.db key with
  | some (.set s) =>
      (s.setTypeAdd maxEntries value).map fun (s, new) =>
        { e.setKey key (.set s) with dirty := if new then e.dirty + 1 else e.dirty }
  | _ => some e

/-- `value` decides on the encoding of a new set. -/
def ensureSet (key value : Text) (found : Option EncodedObj) : Option (EncodedLoading × Bool) :=
  match found with
  | none => (e.dbAdd key (.set (.setTypeCreate value))).map fun e => (e, true)
  | some (.set _) => some (e, true)
  | some _ => some (e.addReply (.error wrongTypeError), false)

def joinEnds (node1 node2 : ℤ) : Option EncodedLoading :=
  (e.addMember maxEntries (nodeKey node1) (sdsll2str node2)).bind fun e =>
    (e.addMember maxEntries (nodeKey node2) (sdsll2str node1)).map fun e =>
      (e.setKey (colorKey node1) (.string ['0'])).setKey (colorKey node2) (.string ['0'])

def addEdge (node1 node2 : ℤ) : Option EncodedLoading :=
  let set1 := e.db (nodeKey node1)
  let set2 := e.db (nodeKey node2)
  match e.ensureSet (nodeKey node1) (sdsll2str node2) set1 with
  | none => none
  | some (e, false) => some e
  | some (e, true) =>
      match e.ensureSet (nodeKey node2) (sdsll2str node1) set2 with
      | none => none
      | some (e, false) => some e
      | some (e, true) => e.joinEnds maxEntries node1 node2

def addLine (line : Text) : Option EncodedLoading :=
  match scanEdge line with
  | some (node1, node2) => e.addEdge maxEntries (toInt node1) (toInt node2)
  | none => some e

def addGraphCommand (files : Text → Option Text) (argv : List StringObj) :
    Option EncodedLoading :=
  match argv with
  | _ :: name :: _ =>
      (Copy.keydb.filename name).bind fun filename =>
        match files filename with
        | some text =>
            ((fgetsLines 256 text).foldlM (addLine maxEntries) e).map fun e => e.addReply .ok
        | none => some (e.addReply (.error (openError .keydb)))
  | _ => some (e.addReply (.error "Not enough arguments for add_graph command"))

end EncodedLoading

/-- The object without its encoding. -/
def EncodedObj.plain : EncodedObj → Obj
  | .string value => .string value
  | .set s => .set s.members
  | .other => .other

namespace EncodedLoading

def plain (e : EncodedLoading) : Loading :=
  ⟨fun key => (e.db key).map EncodedObj.plain, e.replies, e.dirty⟩

def Valid (e : EncodedLoading) : Prop := ∀ ⦃key s⦄, e.db key = some (.set s) → s.Valid

/-- The two levels abort together, or come to well-formed sets and their members. -/
structure Shows (result : Option EncodedLoading) (expected : Option Loading) : Prop where
  plain : result.map EncodedLoading.plain = expected
  valid : ∀ e, result = some e → e.Valid

variable {maxEntries : ℕ} {e : EncodedLoading}

theorem Shows.pure (valid : e.Valid) : Shows (some e) (some e.plain) :=
  ⟨rfl, fun _ same => Option.some.inj same ▸ valid⟩

theorem Shows.aborted : Shows none none :=
  ⟨rfl, fun _ same => nomatch same⟩

theorem Shows.addReply (valid : e.Valid) (reply : AddGraphReply) :
    Shows (some (e.addReply reply)) (some (e.plain.addReply reply)) :=
  ⟨rfl, fun _ same => Option.some.inj same ▸ valid⟩

/-- Steps that agree from every state agree one after the other. -/
theorem Shows.bind {result : Option EncodedLoading} {expected : Option Loading}
    (shows : Shows result expected) {f : EncodedLoading → Option EncodedLoading}
    {g : Loading → Option Loading}
    (next : ∀ e : EncodedLoading, e.Valid → Shows (f e) (g e.plain)) :
    Shows (result.bind f) (expected.bind g) := by
  obtain ⟨plain, valid⟩ := shows
  subst plain
  cases result with
  | none => exact .aborted
  | some e => exact next e (valid e rfl)

theorem plain_setKey (e : EncodedLoading) (key : Text) (obj : EncodedObj) :
    (e.setKey key obj).plain = e.plain.setKey key obj.plain := by
  simp only [plain, setKey, Loading.setKey, Loading.mk.injEq, and_true]
  funext k
  by_cases same : k = key
  · subst same
    simp
  · simp [same]

theorem Valid.setKey (valid : e.Valid) (key : Text) (obj : EncodedObj)
    (formed : ∀ s, obj = .set s → s.Valid) : (e.setKey key obj).Valid := by
  intro k s there
  by_cases same : k = key
  · subst same
    simp only [EncodedLoading.setKey, Function.update_self, Option.some.injEq] at there
    exact formed s there
  · simp only [EncodedLoading.setKey, Function.update_of_ne same] at there
    exact valid there

theorem plain_db_none {key : Text} : e.plain.db key = none ↔ e.db key = none :=
  Option.map_eq_none_iff

theorem dbAdd_shows (valid : e.Valid) (key : Text) {s : SetObj} (formed : s.Valid) :
    Shows (e.dbAdd key (.set s)) (e.plain.dbAdd key (.set s.members)) := by
  rw [Loading.dbAdd, dbAdd]
  rcases there : e.db key with _ | obj
  · rw [if_pos (plain_db_none.mpr there)]
    have kept : (e.setKey key (.set s)).Valid :=
      valid.setKey key _ fun s' same => EncodedObj.set.inj same ▸ formed
    exact ⟨congrArg some (plain_setKey ..), fun _ same => Option.some.inj same ▸ kept⟩
  · have taken : e.plain.db key ≠ none := fun absent => by
      rw [plain_db_none.mp absent] at there
      cases there
    rw [if_neg taken]
    exact .aborted

/-- Whatever becomes of the encoding, the set gets the string, and `dirty` counts it if new. -/
theorem addMember_shows (limited : maxEntries < 2 ^ 29) (valid : e.Valid) (key value : Text) :
    Shows (e.addMember maxEntries key value) (some (e.plain.setTypeAdd key value)) := by
  rw [addMember, Loading.setTypeAdd]
  rcases there : e.db key with _ | (text | s | _)
  · simpa [plain, there] using Shows.pure valid
  · simpa [plain, there, EncodedObj.plain] using Shows.pure valid
  · obtain ⟨s', done, formed, members⟩ := SetObj.setTypeAdd_spec limited (valid there) value
    have shown : e.plain.db key = some (.set s.members) := by simp [plain, there, EncodedObj.plain]
    have kept : (e.setKey key (.set s')).Valid :=
      valid.setKey key _ fun s' same => EncodedObj.set.inj same ▸ formed
    have after := plain_setKey e key (.set s')
    simp only [done, shown, Option.map_some, decide_eq_true_eq]
    refine ⟨congrArg some ?_, fun _ same => Option.some.inj same ▸ kept⟩
    rw [EncodedObj.plain, members] at after
    by_cases old : value ∈ s.members
    · rw [Finset.insert_eq_of_mem old] at after
      simp only [old, not_true_eq_false, if_false, if_true]
      refine after.trans ?_
      rw [Loading.setKey, ← shown, Function.update_eq_self]
    · simp only [old, not_false_eq_true, if_true, if_false]
      exact congrArg (fun l : Loading => { l with dirty := e.dirty + 1 }) after
  · simpa [plain, there, EncodedObj.plain] using Shows.pure valid

theorem ensureSet_shows (valid : e.Valid) (key value : Text) (found : Option EncodedObj) :
    (e.ensureSet key value found).map (Prod.map EncodedLoading.plain id) =
        e.plain.ensureSet key (found.map EncodedObj.plain) ∧
      ∀ e' go, e.ensureSet key value found = some (e', go) → e'.Valid := by
  unfold ensureSet Loading.ensureSet
  rcases found with _ | (text | s | _)
  · obtain ⟨formed, bare⟩ := SetObj.setTypeCreate_valid value
    have added := dbAdd_shows valid key formed
    rw [bare] at added
    simp only [Option.map_none, ← added.plain, Option.map_map]
    refine ⟨rfl, fun e' go same => ?_⟩
    obtain ⟨e₁, done, pair⟩ := Option.map_eq_some_iff.mp same
    cases pair
    exact added.valid _ done
  · exact ⟨rfl, fun e' go same => by cases same; exact valid⟩
  · exact ⟨rfl, fun e' go same => by cases same; exact valid⟩
  · exact ⟨rfl, fun e' go same => by cases same; exact valid⟩

theorem joinEnds_shows (limited : maxEntries < 2 ^ 29) (valid : e.Valid) (node1 node2 : ℤ) :
    Shows (e.joinEnds maxEntries node1 node2) (some (e.plain.joinEnds node1 node2)) := by
  unfold joinEnds
  rw [sdsll2str_eq, sdsll2str_eq]
  refine (addMember_shows limited valid (nodeKey node1) (decimal node2)).bind
    (g := fun l => some ((l.setTypeAdd (nodeKey node2) (decimal node1)).setKey
      (colorKey node1) (.string ['0']) |>.setKey (colorKey node2) (.string ['0'])))
    fun e₁ valid₁ => ?_
  rw [Option.map_eq_bind]
  refine (addMember_shows limited valid₁ (nodeKey node2) (decimal node1)).bind
    (g := fun l => some ((l.setKey (colorKey node1) (.string ['0'])).setKey
      (colorKey node2) (.string ['0']))) fun e₂ valid₂ => ?_
  have colored := (valid₂.setKey (colorKey node1) (.string ['0']) (by simp)).setKey
    (colorKey node2) (.string ['0']) (by simp)
  have shows := Shows.pure colored
  rwa [plain_setKey, plain_setKey] at shows

theorem addEdge_shows (limited : maxEntries < 2 ^ 29) (valid : e.Valid) (node1 node2 : ℤ) :
    Shows (e.addEdge maxEntries node1 node2) (e.plain.addEdge node1 node2) := by
  obtain ⟨first, valid₁⟩ := ensureSet_shows valid (nodeKey node1) (sdsll2str node2)
    (e.db (nodeKey node1))
  unfold addEdge Loading.addEdge
  simp only [show ∀ key, e.plain.db key = (e.db key).map EncodedObj.plain from fun _ => rfl,
    ← first]
  rcases done₁ : e.ensureSet (nodeKey node1) (sdsll2str node2) (e.db (nodeKey node1)) with
    _ | ⟨e₁, _ | _⟩
  · exact .aborted
  · exact .pure (valid₁ e₁ false done₁)
  · obtain ⟨second, valid₂⟩ := ensureSet_shows (valid₁ e₁ true done₁) (nodeKey node2)
      (sdsll2str node1) (e.db (nodeKey node2))
    simp only [Option.map_some, Prod.map_apply, id_eq, ← second]
    rcases done₂ : e₁.ensureSet (nodeKey node2) (sdsll2str node1) (e.db (nodeKey node2)) with
      _ | ⟨e₂, _ | _⟩
    · exact .aborted
    · exact .pure (valid₂ e₂ false done₂)
    · exact joinEnds_shows limited (valid₂ e₂ true done₂) node1 node2

theorem addLine_shows (limited : maxEntries < 2 ^ 29) (valid : e.Valid) (line : Text) :
    Shows (e.addLine maxEntries line) (e.plain.addLine line) := by
  unfold addLine Loading.addLine
  cases scanEdge line with
  | none => exact .pure valid
  | some edge => exact addEdge_shows limited valid (toInt edge.1) (toInt edge.2)

theorem addLines_shows (limited : maxEntries < 2 ^ 29) (lines : List Text) (valid : e.Valid) :
    Shows (lines.foldlM (addLine maxEntries) e) (lines.foldlM Loading.addLine e.plain) := by
  induction lines generalizing e with
  | nil => exact .pure valid
  | cons line lines ih => exact (addLine_shows limited valid line).bind fun _ valid₁ => ih valid₁

/-- Over the encodings of sets `add_graph` does what it does over plain sets: it aborts for the
same files, and otherwise gives the same replies, the same `dirty` and sets with the same
members, all of them well formed. -/
theorem encoded_load_shows_plain (maxEntries : ℕ) (limited : maxEntries < 2 ^ 29)
    (e : EncodedLoading) (valid : e.Valid) (files : Text → Option Text) (argv : List StringObj) :
    (e.addGraphCommand maxEntries files argv).map EncodedLoading.plain =
        e.plain.addGraphCommand .keydb files argv ∧
      ∀ e', e.addGraphCommand maxEntries files argv = some e' → e'.Valid := by
  suffices Shows (e.addGraphCommand maxEntries files argv)
      (e.plain.addGraphCommand .keydb files argv) from ⟨this.plain, this.valid⟩
  rcases argv with _ | ⟨_, _ | ⟨name, _⟩⟩
  · exact .addReply valid _
  · exact .addReply valid _
  · simp only [addGraphCommand, Loading.addGraphCommand]
    cases Copy.keydb.filename name with
    | none => exact .aborted
    | some filename =>
        simp only [Option.bind_some]
        cases files filename with
        | none => exact .addReply valid _
        | some text =>
            simp only [Option.map_eq_bind]
            exact (addLines_shows limited (fgetsLines 256 text) valid).bind fun _ valid' =>
              .addReply valid' .ok

/-- An edge with a number that a 16 bit integer set does not hold. -/
theorem wide_edge_shows_plain :
    ((⟨fun _ => none, [], 0⟩ : EncodedLoading).addGraphCommand 512
        (fun _ => some "1,70000".toList) longNameArgs).map
          EncodedLoading.plain =
      (⟨fun _ => none, [], 0⟩ : Loading).addGraphCommand .keydb
        (fun _ => some "1,70000".toList) longNameArgs :=
  (encoded_load_shows_plain 512 (by decide) ⟨fun _ => none, [], 0⟩
    (fun _ _ there => by cases there) (fun _ => some "1,70000".toList) longNameArgs).1

end EncodedLoading

end KeyDB

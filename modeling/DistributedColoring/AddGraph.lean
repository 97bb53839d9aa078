import DistributedColoring.CText
import Mathlib.Data.Finset.Basic
import Mathlib.Logic.Function.Basic

set_option autoImplicit false

/- `add_graph`, the command that reads a file of edges into a server. Keys are texts
here, as the command formats them. -/
namespace DistributedColoring

open CText

/-- What a key holds. -/
inductive Obj
  | string (value : Text)
  | set (members : Finset Text)
  | other
  deriving DecidableEq

abbrev Db := Text → Option Obj

/-- A buffer of `size` characters keeps one less. -/
def snprintf (size : ℕ) (text : Text) : Text := text.take (size - 1)

def nodeKey (v : ℤ) : Text :=
  snprintf 32 ("node_".toList ++ (decimal v ++ "_neighbours".toList))

def colorKey (v : ℤ) : Text :=
  snprintf 32 ("node_".toList ++ (decimal v ++ "_color".toList))

/-- A string object, as the arguments of a command are. The bytes of an embedded one stand in
the object itself, from the place of its pointer on. -/
structure StringObj where
  text : Text
  embstr : Bool
  deriving DecidableEq

/-- The arguments of a RESP request in KeyDB. -/
def createStringObject (text : Text) : StringObj := ⟨text, decide (text.length ≤ 52)⟩

/-- The arguments of an inline request. -/
def createRawStringObject (text : Text) : StringObj := ⟨text, false⟩

/-- The command exists twice. The copies differ in the text of an error and in how they get
at the name of the file. -/
inductive Copy
  | keydb
  | redis
  deriving DecidableEq

/-- The name the file is opened by. KeyDB's copy takes `m_ptr` for the address of the bytes;
in an embedded object these are bytes of the string, and the read through them ends the
process. -/
def Copy.filename : Copy → StringObj → Option Text
  | .keydb, name => if name.embstr then none else some name.text
  | .redis, name => some name.text

def Copy.Finds (copy : Copy) (name : StringObj) : Prop := copy = .redis ∨ name.embstr = false

instance (copy : Copy) (name : StringObj) : Decidable (copy.Finds name) :=
  inferInstanceAs (Decidable (_ ∨ _))

theorem Copy.filename_eq (copy : Copy) (name : StringObj) :
    copy.filename name = if copy.Finds name then some name.text else none := by
  cases copy with
  | keydb => cases embedded : name.embstr <;> simp [filename, Finds, embedded]
  | redis => simp [filename, Finds]

inductive AddGraphReply
  | error (text : String)
  | ok
  deriving DecidableEq

def wrongTypeError : String :=
  "WRONGTYPE Operation against a key holding the wrong kind of value"

def openError : Copy → String
  | .keydb => "Could not open file "
  | .redis => "Could not open file"

/-- `sscanf(line, "%d,%d", &node1, &node2)`, before the conversion to `int`. -/
def scanEdge (line : Text) : Option (ℤ × ℤ) :=
  match scanInt line with
  | some (node1, ',' :: rest) => (scanInt rest).map fun r => (node1, r.1)
  | _ => none

/-- The numbers of an edge line as the `int`s they are read into. -/
def lineEdge (line : Text) : Option (ℤ × ℤ) :=
  (scanEdge line).map fun edge => (toInt edge.1, toInt edge.2)

/-- The server while the command runs: its keys, the replies to the client, and
`dirty`. -/
structure Loading where
  db : Db
  replies : List AddGraphReply
  dirty : ℕ

namespace Loading

variable (s : Loading)

def addReply (reply : AddGraphReply) : Loading := { s with replies := s.replies ++ [reply] }

/-- `dbAdd` asserts that the key is new; without it the process ends. -/
def dbAdd (key : Text) (obj : Obj) : Option Loading :=
  if s.db key = none then some { s with db := Function.update s.db key (some obj) } else none

def setKey (key : Text) (obj : Obj) : Loading :=
  { s with db := Function.update s.db key (some obj) }

def setTypeAdd (key value : Text) : Loading :=
  match s.db key with
  | some (.set members) =>
      if value ∈ members then s
      else
        { s with
          db := Function.update s.db key (some (.set (insert value members)))
          dirty := s.dirty + 1 }
  | _ => s

/-- The set of one end, as `found` by an earlier lookup or new and empty. The flag
tells whether the line goes on. -/
def ensureSet (key : Text) (found : Option Obj) : Option (Loading × Bool) :=
  match found with
  | none => (s.dbAdd key (.set ∅)).map fun s => (s, true)
  | some (.set _) => some (s, true)
  | some _ => some (s.addReply (.error wrongTypeError), false)

/-- The end of an edge line, with both sets there. -/
def joinEnds (node1 node2 : ℤ) : Loading :=
  let s := s.setTypeAdd (nodeKey node1) (decimal node2)
  let s := s.setTypeAdd (nodeKey node2) (decimal node1)
  (s.setKey (colorKey node1) (.string ['0'])).setKey (colorKey node2) (.string ['0'])

/-- Both lookups come before either insertion. -/
def addEdge (node1 node2 : ℤ) : Option Loading :=
  let set1 := s.db (nodeKey node1)
  let set2 := s.db (nodeKey node2)
  match s.ensureSet (nodeKey node1) set1 with
  | none => none
  | some (s, false) => some s
  | some (s, true) =>
      match s.ensureSet (nodeKey node2) set2 with
      | none => none
      | some (s, false) => some s
      | some (s, true) => some (s.joinEnds node1 node2)

def addLine (line : Text) : Option Loading :=
  match scanEdge line with
  | some (node1, node2) => s.addEdge (toInt node1) (toInt node2)
  | none => some s

def addGraphCommand (copy : Copy) (files : Text → Option Text) (argv : List StringObj) :
    Option Loading :=
  match argv with
  | _ :: name :: _ =>
      (copy.filename name).bind fun filename =>
        match files filename with
        | some text => ((fgetsLines 256 text).foldlM addLine s).map fun s => s.addReply .ok
        | none => some (s.addReply (.error (openError copy)))
  | _ => some (s.addReply (.error "Not enough arguments for add_graph command"))

end Loading

theorem nodeKey_eq {v : ℤ} (range : InInt v) :
    nodeKey v = "node_".toList ++ (decimal v ++ "_neighbours".toList) := by
  apply List.take_of_length_le
  have := length_decimal_le range
  simp only [List.length_append]
  change 5 + ((decimal v).length + 11) ≤ 31
  omega

theorem colorKey_eq {v : ℤ} (range : InInt v) :
    colorKey v = "node_".toList ++ (decimal v ++ "_color".toList) := by
  apply List.take_of_length_le
  have := length_decimal_le range
  simp only [List.length_append]
  change 5 + ((decimal v).length + 6) ≤ 31
  omega

theorem nodeKey_injective {u v : ℤ} (rangeU : InInt u) (rangeV : InInt v)
    (same : nodeKey u = nodeKey v) : u = v := by
  rw [nodeKey_eq rangeU, nodeKey_eq rangeV, List.append_cancel_left_eq] at same
  exact (decimal_append_inj (by decide) same).1

theorem colorKey_injective {u v : ℤ} (rangeU : InInt u) (rangeV : InInt v)
    (same : colorKey u = colorKey v) : u = v := by
  rw [colorKey_eq rangeU, colorKey_eq rangeV, List.append_cancel_left_eq] at same
  exact (decimal_append_inj (by decide) same).1

theorem nodeKey_ne_colorKey {u v : ℤ} (rangeU : InInt u) (rangeV : InInt v) :
    nodeKey u ≠ colorKey v := by
  intro same
  rw [nodeKey_eq rangeU, colorKey_eq rangeV, List.append_cancel_left_eq] at same
  exact absurd (decimal_append_inj (by decide) same).2 (by decide)

theorem scanEdge_newline (line : Text) : scanEdge (line ++ ['\n']) = scanEdge line := by
  unfold scanEdge
  rw [scanInt_newline]
  cases scanInt line with
  | none => rfl
  | some first =>
      obtain ⟨node1, rest⟩ := first
      cases rest with
      | nil => rfl
      | cons c rest =>
          by_cases comma : c = ','
          · subst comma
            simp [scanInt_newline, Function.comp_def]
          · simp [comma]

/-- The edge lines of a file. -/
def fileEdges (text : Text) : List (ℤ × ℤ) := (text.splitOn '\n').filterMap scanEdge

/-- Two nodes share an edge line, in either position. -/
def Joined (edges : List (ℤ × ℤ)) (u v : ℤ) : Prop := (u, v) ∈ edges ∨ (v, u) ∈ edges

def Mentioned (edges : List (ℤ × ℤ)) (v : ℤ) : Prop := ∃ u, Joined edges u v

def IntEdge (edge : ℤ × ℤ) : Prop := InInt edge.1 ∧ InInt edge.2

/-- Both numbers are in the range of `int`, and they differ. -/
def PlainEdge (edge : ℤ × ℤ) : Prop := IntEdge edge ∧ edge.1 ≠ edge.2

def members (db : Db) (key : Text) : Finset Text :=
  match db key with
  | some (.set members) => members
  | _ => ∅

/-- Every neighbours key holds a set. -/
def HoldsSets (db : Db) : Prop :=
  ∀ v obj, InInt v → db (nodeKey v) = some obj → ∃ members, obj = .set members

/-- The key is free or holds a set. -/
def SetOrFree (db : Db) (key : Text) : Prop :=
  ∀ obj, db key = some obj → ∃ members, obj = .set members

/-- No node of `edges` has a value of another type for its neighbours. -/
def Typed (edges : List (ℤ × ℤ)) (db : Db) : Prop :=
  ∀ v, Mentioned edges v → SetOrFree db (nodeKey v)

/-- What reading `edges` is for: the sets of the nodes grow by exactly their
neighbours, their colours are reset, and nothing else happens. -/
structure Loads (edges : List (ℤ × ℤ)) (db db' : Db) : Prop where
  neighbours : ∀ v, Mentioned edges v → ∃ stored, db' (nodeKey v) = some (.set stored) ∧
    ∀ text, text ∈ stored ↔
      text ∈ members db (nodeKey v) ∨ ∃ u, Joined edges u v ∧ text = decimal u
  color : ∀ v, Mentioned edges v → db' (colorKey v) = some (.string ['0'])
  others : ∀ key, (∀ v, Mentioned edges v → key ≠ nodeKey v ∧ key ≠ colorKey v) →
    db' key = db key

theorem Joined.inInt {edges : List (ℤ × ℤ)} (range : ∀ e ∈ edges, IntEdge e) {u v : ℤ}
    (joined : Joined edges u v) : InInt v := by
  rcases joined with edge | edge
  · exact (range _ edge).2
  · exact (range _ edge).1

theorem Mentioned.inInt {edges : List (ℤ × ℤ)} (range : ∀ e ∈ edges, IntEdge e) {v : ℤ}
    (mentioned : Mentioned edges v) : InInt v := by
  obtain ⟨u, joined⟩ := mentioned
  exact joined.inInt range

theorem joined_append {xs ys : List (ℤ × ℤ)} {u v : ℤ} :
    Joined (xs ++ ys) u v ↔ Joined xs u v ∨ Joined ys u v := by
  unfold Joined
  rw [List.mem_append, List.mem_append]
  tauto

theorem mentioned_append {xs ys : List (ℤ × ℤ)} {v : ℤ} :
    Mentioned (xs ++ ys) v ↔ Mentioned xs v ∨ Mentioned ys v := by
  simp only [Mentioned, joined_append, exists_or]

namespace Loads

variable {edges : List (ℤ × ℤ)} {db db' : Db}

theorem nodeKey_other (loads : Loads edges db db') (range : ∀ e ∈ edges, IntEdge e) {v : ℤ}
    (inInt : InInt v) (other : ¬ Mentioned edges v) : db' (nodeKey v) = db (nodeKey v) := by
  apply loads.others
  intro u mentioned
  have rangeU := mentioned.inInt range
  refine ⟨fun same => ?_, nodeKey_ne_colorKey inInt rangeU⟩
  rw [nodeKey_injective inInt rangeU same] at other
  exact other mentioned

theorem colorKey_other (loads : Loads edges db db') (range : ∀ e ∈ edges, IntEdge e) {v : ℤ}
    (inInt : InInt v) (other : ¬ Mentioned edges v) : db' (colorKey v) = db (colorKey v) := by
  apply loads.others
  intro u mentioned
  have rangeU := mentioned.inInt range
  refine ⟨(nodeKey_ne_colorKey rangeU inInt).symm, fun same => ?_⟩
  rw [colorKey_injective inInt rangeU same] at other
  exact other mentioned

theorem mem_members (loads : Loads edges db db') (range : ∀ e ∈ edges, IntEdge e) {v : ℤ}
    (inInt : InInt v) (text : Text) : text ∈ members db' (nodeKey v) ↔
      text ∈ members db (nodeKey v) ∨ ∃ u, Joined edges u v ∧ text = decimal u := by
  by_cases mentioned : Mentioned edges v
  · obtain ⟨stored, found, exact⟩ := loads.neighbours v mentioned
    rw [members, found]
    exact exact text
  · have none : ¬ ∃ u, Joined edges u v ∧ text = decimal u := by
      intro ⟨u, joined, _⟩
      exact mentioned ⟨u, joined⟩
    rw [members, loads.nodeKey_other range inInt mentioned, or_iff_left none]
    rfl

theorem setOrFree (loads : Loads edges db db') (range : ∀ e ∈ edges, IntEdge e) {v : ℤ}
    (inInt : InInt v) (free : SetOrFree db (nodeKey v)) : SetOrFree db' (nodeKey v) := by
  intro obj found
  by_cases mentioned : Mentioned edges v
  · obtain ⟨stored, new, _⟩ := loads.neighbours v mentioned
    rw [new] at found
    exact ⟨stored, (Option.some.inj found).symm⟩
  · rw [loads.nodeKey_other range inInt mentioned] at found
    exact free obj found

theorem holdsSets (loads : Loads edges db db') (range : ∀ e ∈ edges, IntEdge e)
    (sets : HoldsSets db) : HoldsSets db' := by
  intro v obj inInt found
  exact loads.setOrFree range inInt (fun obj => sets v obj inInt) obj found

theorem append {xs ys : List (ℤ × ℤ)} {db₁ : Db} (range : ∀ e ∈ xs ++ ys, IntEdge e)
    (first : Loads xs db db₁) (second : Loads ys db₁ db') : Loads (xs ++ ys) db db' := by
  have rangeX : ∀ e ∈ xs, IntEdge e := fun e member => range e (List.mem_append_left _ member)
  have rangeY : ∀ e ∈ ys, IntEdge e := fun e member => range e (List.mem_append_right _ member)
  refine ⟨?_, ?_, ?_⟩
  · intro v mentioned
    have inInt := mentioned.inInt range
    have grown : ∀ text, text ∈ members db' (nodeKey v) ↔
        text ∈ members db (nodeKey v) ∨ ∃ u, Joined (xs ++ ys) u v ∧ text = decimal u := by
      intro text
      rw [second.mem_members rangeY inInt, first.mem_members rangeX inInt]
      simp only [joined_append, or_and_right, exists_or, or_assoc]
    have isSet : ∃ stored, db' (nodeKey v) = some (.set stored) := by
      by_cases later : Mentioned ys v
      · obtain ⟨stored, found, _⟩ := second.neighbours v later
        exact ⟨stored, found⟩
      · have earlier := (mentioned_append.mp mentioned).resolve_right later
        obtain ⟨stored, found, _⟩ := first.neighbours v earlier
        exact ⟨stored, (second.nodeKey_other rangeY inInt later).trans found⟩
    obtain ⟨stored, found⟩ := isSet
    refine ⟨stored, found, ?_⟩
    intro text
    have exact := grown text
    rwa [members, found] at exact
  · intro v mentioned
    by_cases later : Mentioned ys v
    · exact second.color v later
    · have earlier := (mentioned_append.mp mentioned).resolve_right later
      rw [second.colorKey_other rangeY (mentioned.inInt range) later]
      exact first.color v earlier
  · intro key apart
    rw [second.others key fun v later => apart v (mentioned_append.mpr (Or.inr later))]
    exact first.others key fun v earlier => apart v (mentioned_append.mpr (Or.inl earlier))

/-- The result depends only on which nodes are joined. -/
theorem congr {edges' : List (ℤ × ℤ)} {db'' : Db} (loads : Loads edges db db')
    (loads' : Loads edges' db db'') (same : ∀ u v, Joined edges u v ↔ Joined edges' u v) :
    db' = db'' := by
  have mentioned : ∀ v, Mentioned edges v ↔ Mentioned edges' v := fun v =>
    exists_congr fun u => same u v
  funext key
  by_cases isNode : ∃ v, Mentioned edges v ∧ key = nodeKey v
  · obtain ⟨v, here, rfl⟩ := isNode
    obtain ⟨stored, found, exact⟩ := loads.neighbours v here
    obtain ⟨stored', found', exact'⟩ := loads'.neighbours v ((mentioned v).mp here)
    rw [found, found']
    congr 2
    ext text
    rw [exact, exact']
    simp only [same]
  · by_cases isColor : ∃ v, Mentioned edges v ∧ key = colorKey v
    · obtain ⟨v, here, rfl⟩ := isColor
      rw [loads.color v here, loads'.color v ((mentioned v).mp here)]
    · rw [loads.others key, loads'.others key]
      · intro v here
        exact ⟨fun eq => isNode ⟨v, (mentioned v).mpr here, eq⟩,
          fun eq => isColor ⟨v, (mentioned v).mpr here, eq⟩⟩
      · intro v here
        exact ⟨fun eq => isNode ⟨v, here, eq⟩, fun eq => isColor ⟨v, here, eq⟩⟩

theorem again {db'' : Db} (range : ∀ e ∈ edges, IntEdge e) (loads : Loads edges db db')
    (loads' : Loads edges db' db'') : db'' = db' := by
  have twice : ∀ e ∈ edges ++ edges, IntEdge e := by
    intro e member
    exact range e (or_self_iff.mp (List.mem_append.mp member))
  refine (loads.congr (loads.append twice loads') ?_).symm
  intro u v
  rw [joined_append, or_self_iff]

end Loads

theorem joined_singleton {a b u v : ℤ} :
    Joined [(a, b)] u v ↔ (u = a ∧ v = b) ∨ (v = a ∧ u = b) := by
  simp only [Joined, List.mem_singleton, Prod.mk.injEq]

theorem mentioned_singleton {a b v : ℤ} : Mentioned [(a, b)] v ↔ v = a ∨ v = b := by
  simp only [Mentioned, joined_singleton]
  constructor
  · rintro ⟨u, ⟨_, right⟩ | ⟨left, _⟩⟩
    · exact Or.inr right
    · exact Or.inl left
  · rintro (rfl | rfl)
    · exact ⟨b, Or.inr ⟨rfl, rfl⟩⟩
    · exact ⟨a, Or.inl ⟨rfl, rfl⟩⟩

/-- The lines of the file that is named. -/
def linesRead (files : Text → Option Text) : List StringObj → List Text
  | _ :: name :: _ => ((files name.text).map (fgetsLines 256)).getD []
  | _ => []

/-- The command gets past the name of the file, if there is one. -/
def NameFound (copy : Copy) : List StringObj → Prop
  | _ :: name :: _ => copy.Finds name
  | _ => True

instance (copy : Copy) : (argv : List StringObj) → Decidable (NameFound copy argv)
  | _ :: name :: _ => inferInstanceAs (Decidable (copy.Finds name))
  | [] => isTrue trivial
  | [_] => isTrue trivial

def edgesRead (files : Text → Option Text) (argv : List StringObj) : List (ℤ × ℤ) :=
  (linesRead files argv).filterMap lineEdge

theorem intEdge_of_lineEdge {line : Text} {edge : ℤ × ℤ} (read : lineEdge line = some edge) :
    IntEdge edge := by
  obtain ⟨scanned, _, rfl⟩ := Option.map_eq_some_iff.mp read
  exact ⟨inInt_toInt _, inInt_toInt _⟩

theorem intEdge_of_lines {lines : List Text} :
    ∀ edge ∈ lines.filterMap lineEdge, IntEdge edge := by
  intro edge member
  obtain ⟨line, _, read⟩ := List.mem_filterMap.mp member
  exact intEdge_of_lineEdge read

theorem intEdge_of_read {files : Text → Option Text} {argv : List StringObj} :
    ∀ edge ∈ edgesRead files argv, IntEdge edge :=
  intEdge_of_lines

theorem HoldsSets.typed {edges : List (ℤ × ℤ)} {db : Db} (sets : HoldsSets db)
    (range : ∀ e ∈ edges, IntEdge e) : Typed edges db :=
  fun v mentioned obj => sets v obj (mentioned.inInt range)

theorem typed_cons {a b : ℤ} {edges : List (ℤ × ℤ)} {db : Db} :
    Typed ((a, b) :: edges) db ↔
      SetOrFree db (nodeKey a) ∧ SetOrFree db (nodeKey b) ∧ Typed edges db := by
  have mentioned : ∀ v, Mentioned ((a, b) :: edges) v ↔ (v = a ∨ v = b) ∨ Mentioned edges v := by
    intro v
    rw [← mentioned_singleton, ← mentioned_append]
    rfl
  simp only [Typed, mentioned, or_imp, forall_and, forall_eq, and_assoc]

theorem Typed.step {edges : List (ℤ × ℤ)} {db db' : Db} {edge : ℤ × ℤ} (typed : Typed edges db)
    (range : ∀ e ∈ edges, IntEdge e) (here : IntEdge edge) (loads : Loads [edge] db db') :
    Typed edges db' := by
  intro v mentioned
  have only : ∀ e ∈ [edge], IntEdge e := fun e member => by
    rw [List.mem_singleton.mp member]
    exact here
  exact loads.setOrFree only (mentioned.inInt range) (typed v mentioned)

namespace Loading

variable {s : Loading}

/-- The server with a set under the key, new if the key was free. -/
def withSet (s : Loading) (key : Text) : Loading :=
  { s with db := Function.update s.db key (some (.set (members s.db key))) }

theorem ensureSet_of_set (key : Text) (free : SetOrFree s.db key) :
    s.ensureSet key (s.db key) = some (s.withSet key, true) := by
  unfold ensureSet withSet members
  cases found : s.db key with
  | none => simp [dbAdd, found]
  | some obj =>
      obtain ⟨stored, same⟩ := free obj found
      subst same
      have kept := Function.update_eq_self key s.db
      rw [found] at kept
      simp only [kept]

theorem setTypeAdd_db {key : Text} (value : Text) {stored : Finset Text}
    (found : s.db key = some (.set stored)) :
    (s.setTypeAdd key value).db = Function.update s.db key (some (.set (insert value stored))) := by
  simp only [setTypeAdd, found]
  split
  · rename_i old
    rw [Finset.insert_eq_of_mem old, ← found, Function.update_eq_self]
  · rfl

theorem setTypeAdd_replies (key value : Text) :
    (s.setTypeAdd key value).replies = s.replies := by
  unfold setTypeAdd
  split
  · split <;> rfl
  · rfl

theorem joinEnds_db {a b : ℤ} (apart : nodeKey b ≠ nodeKey a) {ofA ofB : Finset Text}
    (foundA : s.db (nodeKey a) = some (.set ofA)) (foundB : s.db (nodeKey b) = some (.set ofB)) :
    (s.joinEnds a b).db =
      Function.update (Function.update (Function.update (Function.update s.db
        (nodeKey a) (some (.set (insert (decimal b) ofA))))
        (nodeKey b) (some (.set (insert (decimal a) ofB))))
        (colorKey a) (some (.string ['0']))) (colorKey b) (some (.string ['0'])) := by
  have first := setTypeAdd_db (decimal b) foundA
  have still : (s.setTypeAdd (nodeKey a) (decimal b)).db (nodeKey b) = some (.set ofB) := by
    rw [first, Function.update_of_ne apart]
    exact foundB
  simp only [joinEnds, setKey, setTypeAdd_db (decimal a) still, first]

theorem joinEnds_replies (a b : ℤ) : (s.joinEnds a b).replies = s.replies := by
  simp only [joinEnds, setKey, setTypeAdd_replies]

/-- The server with the sets of both ends of an edge. -/
def withSets (s : Loading) (a b : ℤ) : Loading :=
  { s with
    db := Function.update (Function.update s.db (nodeKey a)
      (some (.set (members s.db (nodeKey a))))) (nodeKey b)
      (some (.set (members s.db (nodeKey b)))) }

theorem foundA_withSets {a b : ℤ} (apart : nodeKey b ≠ nodeKey a) :
    (s.withSets a b).db (nodeKey a) = some (.set (members s.db (nodeKey a))) := by
  simp [withSets, apart.symm]

theorem foundB_withSets {a b : ℤ} :
    (s.withSets a b).db (nodeKey b) = some (.set (members s.db (nodeKey b))) := by
  simp [withSets]

theorem addEdge_eq {a b : ℤ} (apart : nodeKey b ≠ nodeKey a)
    (freeA : SetOrFree s.db (nodeKey a)) (freeB : SetOrFree s.db (nodeKey b)) :
    s.addEdge a b = some ((s.withSets a b).joinEnds a b) := by
  have first := ensureSet_of_set (nodeKey a) freeA
  have unchanged : (s.withSet (nodeKey a)).db (nodeKey b) = s.db (nodeKey b) :=
    Function.update_of_ne apart _ _
  have second := ensureSet_of_set (s := s.withSet (nodeKey a)) (nodeKey b)
    fun obj found => freeB obj (unchanged ▸ found)
  rw [unchanged] at second
  simp only [addEdge, first, second]
  simp only [withSet, withSets, members, Function.update_of_ne apart]

theorem loads_of_distinct {a b : ℤ} (plain : PlainEdge (a, b))
    (freeA : SetOrFree s.db (nodeKey a)) (freeB : SetOrFree s.db (nodeKey b)) :
    ∃ s', s.addEdge a b = some s' ∧ Loads [(a, b)] s.db s'.db ∧ s'.replies = s.replies := by
  obtain ⟨⟨rangeA, rangeB⟩, distinct⟩ := plain
  have apart : nodeKey b ≠ nodeKey a := fun same =>
    distinct (nodeKey_injective rangeB rangeA same).symm
  refine ⟨_, addEdge_eq apart freeA freeB, ?_, joinEnds_replies a b⟩
  have colorsApart : colorKey a ≠ colorKey b := fun same =>
    distinct (colorKey_injective rangeA rangeB same)
  have nodeA : nodeKey a ≠ colorKey a ∧ nodeKey a ≠ colorKey b :=
    ⟨nodeKey_ne_colorKey rangeA rangeA, nodeKey_ne_colorKey rangeA rangeB⟩
  have nodeB : nodeKey b ≠ colorKey a ∧ nodeKey b ≠ colorKey b :=
    ⟨nodeKey_ne_colorKey rangeB rangeA, nodeKey_ne_colorKey rangeB rangeB⟩
  rw [joinEnds_db apart (foundA_withSets apart) foundB_withSets]
  refine ⟨?_, ?_, ?_⟩
  · intro v mentioned
    rcases mentioned_singleton.mp mentioned with rfl | rfl
    · refine ⟨insert (decimal b) (members s.db (nodeKey v)), ?_, fun text => ?_⟩
      · simp [nodeA, apart.symm]
      · simp [joined_singleton, distinct, or_comm]
    · refine ⟨insert (decimal a) (members s.db (nodeKey v)), ?_, fun text => ?_⟩
      · simp [nodeB]
      · simp [joined_singleton, distinct.symm, or_comm]
  · intro v mentioned
    rcases mentioned_singleton.mp mentioned with rfl | rfl
    · simp [colorsApart]
    · simp
  · intro key others
    obtain ⟨notNodeA, notColorA⟩ := others a (mentioned_singleton.mpr (Or.inl rfl))
    obtain ⟨notNodeB, notColorB⟩ := others b (mentioned_singleton.mpr (Or.inr rfl))
    simp [notNodeA, notColorA, notNodeB, notColorB, withSets]

/-- A loop is read where its node has a set already; elsewhere the process ends. -/
theorem loads_of_loop {a : ℤ} (range : InInt a) (free : SetOrFree s.db (nodeKey a))
    {s' : Loading} (done : s.addEdge a a = some s') :
    Loads [(a, a)] s.db s'.db ∧ s'.replies = s.replies := by
  cases found : s.db (nodeKey a) with
  | none => simp [addEdge, ensureSet, dbAdd, found] at done
  | some obj =>
      obtain ⟨stored, same⟩ := free obj found
      subst same
      simp only [addEdge, found, ensureSet, Option.some.injEq] at done
      subst done
      have once := setTypeAdd_db (decimal a) found
      have there : (s.setTypeAdd (nodeKey a) (decimal a)).db (nodeKey a) =
          some (.set (insert (decimal a) stored)) := by
        rw [once, Function.update_self]
      have result : (s.joinEnds a a).db = Function.update (Function.update s.db (nodeKey a)
          (some (.set (insert (decimal a) stored)))) (colorKey a) (some (.string ['0'])) := by
        simp only [joinEnds, setKey, setTypeAdd_db (decimal a) there, once,
          Finset.insert_idem, Function.update_idem]
      have apart := nodeKey_ne_colorKey range range
      refine ⟨?_, joinEnds_replies a a⟩
      rw [result]
      refine ⟨?_, ?_, ?_⟩
      · intro v mentioned
        have node : v = a := or_self_iff.mp (mentioned_singleton.mp mentioned)
        subst node
        refine ⟨insert (decimal v) stored, by simp [apart], fun text => ?_⟩
        simp [members, found, joined_singleton, or_comm]
      · intro v mentioned
        have node : v = a := or_self_iff.mp (mentioned_singleton.mp mentioned)
        subst node
        simp
      · intro key others
        obtain ⟨notNode, notColor⟩ := others a (mentioned_singleton.mpr (Or.inl rfl))
        simp [notNode, notColor]

theorem loads_of_addEdge {a b : ℤ} (range : IntEdge (a, b))
    (freeA : SetOrFree s.db (nodeKey a)) (freeB : SetOrFree s.db (nodeKey b))
    {s' : Loading} (done : s.addEdge a b = some s') :
    Loads [(a, b)] s.db s'.db ∧ s'.replies = s.replies := by
  by_cases loop : a = b
  · subst loop
    exact loads_of_loop range.1 freeA done
  · obtain ⟨s₁, added, loads⟩ := loads_of_distinct (a := a) (b := b) ⟨range, loop⟩ freeA freeB
    rw [done] at added
    cases added
    exact loads

/-- The loop of the command as its edge lines drive it. -/
def addEdges (s : Loading) (edges : List (ℤ × ℤ)) : Option Loading :=
  edges.foldlM (fun s edge => s.addEdge edge.1 edge.2) s

theorem addEdges_cons (s : Loading) (edge : ℤ × ℤ) (edges : List (ℤ × ℤ)) :
    s.addEdges (edge :: edges) = (s.addEdge edge.1 edge.2).bind fun s => s.addEdges edges :=
  List.foldlM_cons

theorem addEdges_append (s : Loading) (before after : List (ℤ × ℤ)) :
    s.addEdges (before ++ after) = (s.addEdges before).bind fun s => s.addEdges after :=
  List.foldlM_append

theorem addLine_eq (s : Loading) (line : Text) :
    s.addLine line = (lineEdge line).elim (some s) fun edge => s.addEdge edge.1 edge.2 := by
  unfold addLine lineEdge
  cases scanEdge line <;> rfl

theorem addLines_eq (s : Loading) (lines : List Text) :
    lines.foldlM addLine s = s.addEdges (lines.filterMap lineEdge) := by
  induction lines generalizing s with
  | nil => rfl
  | cons line lines ih =>
      rw [List.foldlM_cons, addLine_eq]
      cases edge : lineEdge line with
      | none =>
          rw [List.filterMap_cons_none edge]
          exact ih s
      | some ends =>
          rw [List.filterMap_cons_some edge, addEdges_cons]
          exact Option.bind_congr fun s₁ _ => ih s₁

/-- What the loop over the edge lines does when it gets to the end. -/
theorem loads_of_addEdges (edges : List (ℤ × ℤ)) {s s' : Loading}
    (range : ∀ e ∈ edges, IntEdge e) (typed : Typed edges s.db)
    (done : s.addEdges edges = some s') :
    Loads edges s.db s'.db ∧ s'.replies = s.replies := by
  induction edges generalizing s with
  | nil =>
      cases done
      refine ⟨⟨?_, ?_, fun _ _ => rfl⟩, rfl⟩
      · intro v ⟨u, joined⟩
        simp [Joined] at joined
      · intro v ⟨u, joined⟩
        simp [Joined] at joined
  | cons edge edges ih =>
      obtain ⟨a, b⟩ := edge
      obtain ⟨freeA, freeB, rest⟩ := typed_cons.mp typed
      have here := range (a, b) List.mem_cons_self
      have later : ∀ e ∈ edges, IntEdge e := fun e member => range e (List.mem_cons_of_mem _ member)
      rw [addEdges_cons] at done
      obtain ⟨s₁, added, more⟩ := Option.bind_eq_some_iff.mp done
      obtain ⟨loads, quiet⟩ := loads_of_addEdge here freeA freeB added
      obtain ⟨others, silent⟩ := ih later (rest.step later here loads) more
      exact ⟨loads.append range others, silent.trans quiet⟩

theorem exists_addEdges (edges : List (ℤ × ℤ)) {s : Loading} (plain : ∀ e ∈ edges, PlainEdge e)
    (typed : Typed edges s.db) : ∃ s', s.addEdges edges = some s' := by
  induction edges generalizing s with
  | nil => exact ⟨s, rfl⟩
  | cons edge edges ih =>
      obtain ⟨a, b⟩ := edge
      obtain ⟨freeA, freeB, rest⟩ := typed_cons.mp typed
      have here := plain (a, b) List.mem_cons_self
      have later : ∀ e ∈ edges, PlainEdge e :=
        fun e member => plain e (List.mem_cons_of_mem _ member)
      obtain ⟨s₁, added, loads, _⟩ := loads_of_distinct here freeA freeB
      obtain ⟨s', done⟩ := ih later
        (rest.step (fun e member => (later e member).1) here.1 loads)
      refine ⟨s', ?_⟩
      rw [addEdges_cons, added]
      exact done

/-- Every path through the command is the loop over its edge lines and one last reply, unless
the name is not found. -/
theorem addGraphCommand_eq (copy : Copy) (files : Text → Option Text) (argv : List StringObj)
    (s : Loading) : ∃ reply, s.addGraphCommand copy files argv =
      if NameFound copy argv then
        (s.addEdges (edgesRead files argv)).map fun s => s.addReply reply
      else none := by
  rcases argv with _ | ⟨command, _ | ⟨name, args⟩⟩
  · exact ⟨_, rfl⟩
  · exact ⟨_, rfl⟩
  · simp only [addGraphCommand, edgesRead, linesRead, copy.filename_eq]
    by_cases found : copy.Finds name
    · have named : NameFound copy (command :: name :: args) := found
      simp only [if_pos found, if_pos named, Option.bind_some]
      cases files name.text with
      | none => exact ⟨.error (openError copy), rfl⟩
      | some text =>
          simp only [addLines_eq]
          exact ⟨.ok, rfl⟩
    · have unnamed : ¬ NameFound copy (command :: name :: args) := found
      exact ⟨.ok, by rw [if_neg found, if_neg unnamed]; rfl⟩

section Command

variable {s s' : Loading} (copy : Copy) (files : Text → Option Text) (command name : StringObj)
  (args : List StringObj) {text : Text}

theorem addEdges_of_command {argv : List StringObj}
    (done : s.addGraphCommand copy files argv = some s') :
    NameFound copy argv ∧
      ∃ s₁ reply, s.addEdges (edgesRead files argv) = some s₁ ∧ s' = s₁.addReply reply := by
  obtain ⟨reply, command⟩ := addGraphCommand_eq copy files argv s
  rw [command] at done
  split at done
  · rename_i found
    obtain ⟨s₁, added, replied⟩ := Option.map_eq_some_iff.mp done
    exact ⟨found, s₁, reply, added, replied.symm⟩
  · cases done

theorem loads_of_command {argv : List StringObj} (typed : Typed (edgesRead files argv) s.db)
    (done : s.addGraphCommand copy files argv = some s') :
    Loads (edgesRead files argv) s.db s'.db := by
  obtain ⟨_, s₁, reply, added, rfl⟩ := addEdges_of_command copy files done
  exact (loads_of_addEdges _ intEdge_of_read typed added).1

theorem exists_command {argv : List StringObj} (found : NameFound copy argv)
    (plain : ∀ e ∈ edgesRead files argv, PlainEdge e)
    (typed : Typed (edgesRead files argv) s.db) :
    ∃ s', s.addGraphCommand copy files argv = some s' := by
  obtain ⟨reply, command⟩ := addGraphCommand_eq copy files argv s
  obtain ⟨s₁, added⟩ := exists_addEdges _ plain typed
  exact ⟨s₁.addReply reply, by rw [command, if_pos found, added]; rfl⟩

/-- Short lines with numbers in range are read as they stand. -/
theorem edgesRead_eq (opened : files name.text = some text)
    (short : ∀ line ∈ text.splitOn '\n', line.length < 255)
    (range : ∀ e ∈ fileEdges text, IntEdge e) :
    edgesRead files (command :: name :: args) = fileEdges text := by
  have scanned : (fgetsLines 256 text).filterMap scanEdge = fileEdges text := by
    apply filterMap_fgetsLines scanEdge rfl scanEdge_newline
    intro line member
    have := short line member
    omega
  have read : (fileEdges text).map (fun e => (toInt e.1, toInt e.2)) = fileEdges text := by
    rw [List.map_congr_left, List.map_id]
    intro e member
    rw [toInt_of_inInt (range e member).1, toInt_of_inInt (range e member).2]
    rfl
  rw [edgesRead, linesRead, opened, ← read, ← scanned, List.map_filterMap]
  rfl

theorem loads_of_addGraphCommand (opened : files name.text = some text) (sets : HoldsSets s.db)
    (short : ∀ line ∈ text.splitOn '\n', line.length < 255)
    (range : ∀ e ∈ fileEdges text, IntEdge e)
    (done : s.addGraphCommand copy files (command :: name :: args) = some s') :
    Loads (fileEdges text) s.db s'.db := by
  have same := edgesRead_eq files command name args opened short range
  rw [← same]
  exact loads_of_command copy files (sets.typed intEdge_of_read) done

theorem exists_addGraphCommand (found : copy.Finds name) (opened : files name.text = some text)
    (sets : HoldsSets s.db) (short : ∀ line ∈ text.splitOn '\n', line.length < 255)
    (plain : ∀ e ∈ fileEdges text, PlainEdge e) :
    ∃ s', s.addGraphCommand copy files (command :: name :: args) = some s' := by
  have same := edgesRead_eq files command name args opened short
    fun e member => (plain e member).1
  exact exists_command copy files found (same ▸ plain) (sets.typed intEdge_of_read)

end Command

end Loading

/-- Each node is in the set of the other, or neither is. -/
def SymmetricSets (db : Db) : Prop :=
  ∀ u v, InInt u → InInt v →
    (decimal u ∈ members db (nodeKey v) ↔ decimal v ∈ members db (nodeKey u))

theorem Loads.symmetric {edges : List (ℤ × ℤ)} {db db' : Db} (loads : Loads edges db db')
    (range : ∀ e ∈ edges, IntEdge e) (symmetric : SymmetricSets db) : SymmetricSets db' := by
  have joined : ∀ u v : ℤ, (∃ w, Joined edges w v ∧ decimal u = decimal w) ↔ Joined edges u v := by
    intro u v
    constructor
    · intro ⟨w, edge, same⟩
      rwa [decimal_injective same]
    · intro edge
      exact ⟨u, edge, rfl⟩
  intro u v rangeU rangeV
  rw [loads.mem_members range rangeV, loads.mem_members range rangeU, joined, joined,
    symmetric u v rangeU rangeV]
  exact or_congr_right or_comm

/-- Each line of a file is in the other, possibly with its ends swapped. -/
def Rearranges (text text' : Text) : Prop :=
  ∀ line ∈ text.splitOn '\n', ∃ line' ∈ text'.splitOn '\n',
    scanEdge line' = scanEdge line ∨ scanEdge line' = (scanEdge line).map Prod.swap

theorem Rearranges.joined {text text' : Text} (rearranges : Rearranges text text') {u v : ℤ}
    (joined : Joined (fileEdges text) u v) : Joined (fileEdges text') u v := by
  have found : ∀ a b, (a, b) ∈ fileEdges text → Joined (fileEdges text') a b := by
    intro a b member
    obtain ⟨line, inText, edge⟩ := List.mem_filterMap.mp member
    obtain ⟨line', inText', same | swapped⟩ := rearranges line inText
    · exact Or.inl (List.mem_filterMap.mpr ⟨line', inText', same.trans edge⟩)
    · rw [edge] at swapped
      exact Or.inr (List.mem_filterMap.mpr ⟨line', inText', swapped⟩)
  rcases joined with edge | edge
  · exact found u v edge
  · exact (found v u edge).symm

/-- Reading a file adds exactly its adjacency, provided the name of the file is found. It
keeps the sets symmetric, depends neither on the order and number of the lines nor on the
order of their ends, and has no further effect the second time. -/
theorem add_graph_adjacency (copy : Copy) (files : Text → Option Text)
    (command name : StringObj) (args : List StringObj) {text : Text}
    (opened : files name.text = some text) (s : Loading) (sets : HoldsSets s.db)
    (short : ∀ line ∈ text.splitOn '\n', line.length < 255)
    (plain : ∀ e ∈ fileEdges text, PlainEdge e) :
    (∃ s', s.addGraphCommand copy files (command :: name :: args) = some s' ∧
      Loads (fileEdges text) s.db s'.db ∧
      (SymmetricSets s.db → SymmetricSets s'.db) ∧
      (∀ (files' : Text → Option Text) name' text', copy.Finds name' →
        files' name'.text = some text' →
        (∀ line ∈ text'.splitOn '\n', line.length < 255) →
        Rearranges text text' → Rearranges text' text →
        ∃ s'', s.addGraphCommand copy files' (command :: name' :: args) = some s'' ∧
          s''.db = s'.db) ∧
      ∃ s'', s'.addGraphCommand copy files (command :: name :: args) = some s'' ∧
        s''.db = s'.db) ↔
      copy.Finds name := by
  constructor
  · rintro ⟨s', done, _⟩
    exact (Loading.addEdges_of_command copy files done).1
  intro found
  have range : ∀ e ∈ fileEdges text, IntEdge e := fun e member => (plain e member).1
  obtain ⟨s', done⟩ :=
    Loading.exists_addGraphCommand copy files command _ args found opened sets short plain
  have loads :=
    Loading.loads_of_addGraphCommand copy files command _ args opened sets short range done
  refine ⟨s', done, loads, loads.symmetric range, ?_, ?_⟩
  · intro files' name' text' found' opened' short' there back
    have plain' : ∀ e ∈ fileEdges text', PlainEdge e := by
      intro ⟨a, b⟩ member
      rcases back.joined (Or.inl member) with edge | edge
      · exact plain _ edge
      · obtain ⟨⟨rangeB, rangeA⟩, distinct⟩ := plain _ edge
        exact ⟨⟨rangeA, rangeB⟩, distinct.symm⟩
    obtain ⟨s'', done'⟩ :=
      Loading.exists_addGraphCommand copy files' command _ args found' opened' sets short' plain'
    have loads' := Loading.loads_of_addGraphCommand copy files' command _ args opened' sets short'
      (fun e member => (plain' e member).1) done'
    refine ⟨s'', done', loads'.congr loads fun u v => ?_⟩
    exact ⟨back.joined, there.joined⟩
  · have sets' := loads.holdsSets range sets
    obtain ⟨s'', done'⟩ :=
      Loading.exists_addGraphCommand copy files command _ args found opened sets' short plain
    have loads' :=
      Loading.loads_of_addGraphCommand copy files command _ args opened sets' short range done'
    exact ⟨s'', done', loads.again range loads'⟩

/-- Arguments with a name of 60 bytes, which is not embedded. -/
def longNameArgs : List StringObj :=
  ["add_graph".toList, List.replicate 60 'g'].map createStringObject

/-- A path of two edges, with a line that is none. -/
theorem add_graph_path : ∃ s', (Loading.mk (fun _ => none) [] 0).addGraphCommand .keydb
      (fun _ => some "0,1\n# path\n2,1\n".toList) longNameArgs = some s' ∧
    Loads [(0, 1), (2, 1)] (fun _ => none) s'.db := by
  have edges : fileEdges "0,1\n# path\n2,1\n".toList = [(0, 1), (2, 1)] := by decide
  obtain ⟨s', done, loads, _⟩ := (add_graph_adjacency .keydb
    (fun _ => some "0,1\n# path\n2,1\n".toList) (createStringObject "add_graph".toList)
    (createStringObject (List.replicate 60 'g')) [] rfl
    ⟨fun _ => none, [], 0⟩ (fun v obj _ found => by cases found) (by decide)
    (by rw [edges]; simp [PlainEdge, IntEdge, InInt])).mpr (by decide)
  rw [edges] at loads
  exact ⟨s', done, loads⟩

/-- KeyDB ends when it is sent the name of a file that it could read. -/
theorem short_name_aborts :
    HoldsSets (fun _ => none) ∧
      (∀ line ∈ "0,1\n".toList.splitOn '\n', line.length < 255) ∧
      (∀ e ∈ fileEdges "0,1\n".toList, PlainEdge e) ∧
      (Loading.mk (fun _ => none) [] 0).addGraphCommand .keydb (fun _ => some "0,1\n".toList)
        (["add_graph".toList, "/tmp/g.txt".toList].map createStringObject) = none := by
  refine ⟨(fun v obj _ found => nomatch found), by decide, ?_, rfl⟩
  rw [show fileEdges "0,1\n".toList = [(0, 1)] by decide]
  simp [PlainEdge, IntEdge, InInt]

end DistributedColoring

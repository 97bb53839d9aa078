import DistributedColoring.WorkAssignment
import Mathlib.Combinatorics.SimpleGraph.DegreeSum

set_option autoImplicit false

/- The checker 1server/check_color.py. It counts each conflict from both ends. The library of its
client is not part of the repository: the checker is a function of the client, and
`RedisClient.Serves` says what it relies on. -/
namespace DistributedColoring.CheckColor

open CText

/-- `key.split("_")[1]`; here and below `none` stands for an exception. -/
def nodeOf (key : Text) : Option Text := (key.splitOn '_')[1]?

def colorName (node : Text) : Text := "node_".toList ++ (node ++ "_color".toList)

/-- A command in the pipeline. -/
inductive Queued
  | get (key : Text)
  | smembers (key : Text)

def Queued.key : Queued → Text
  | .get key => key
  | .smembers key => key

/-- A reply. A set is a list, in the order in which Python goes through it. -/
inductive Value
  | str (value : Option Text)
  | members (elements : List Text)
  deriving DecidableEq

/-- `redis_client`, with the pipeline as what `execute` makes of the commands in it. -/
structure RedisClient where
  keys : Text → Option (List Text)
  get : Text → Option (Option Text)
  execute : List Queued → Option (List Value)

/-- The loop that fills the pipeline. -/
def queue (keys : List Text) : Option (List Queued) := do
  let queued ← keys.mapM fun key =>
    (nodeOf key).map fun node => [.get (colorName node), .smembers key]
  return queued.flatten

/-- The inner loop. -/
def countErrors (client : RedisClient) (nodeColor : Value) (neighbors : List Text)
    (errorCount : ℕ) : Option ℕ :=
  neighbors.foldlM (fun errorCount neighbor =>
    (client.get (colorName neighbor)).map fun neighborColor =>
      if nodeColor = .str neighborColor then errorCount + 1 else errorCount) errorCount

/-- One pass of the outer loop over `error_count` and `node_count`. -/
def processKey (client : RedisClient) (keys : List Text) (results : List Value) (counts : ℕ × ℕ)
    (i : ℕ) : Option (ℕ × ℕ) := do
  let key ← keys[i]?
  let _ ← nodeOf key
  let nodeColor ← results[i * 2]?
  match ← results[i * 2 + 1]? with
  | .members neighbors =>
      let errorCount ← countErrors client nodeColor neighbors counts.1
      return (errorCount, counts.2 + 1)
  | .str _ => none

/-- `error_count`, which is returned, and `node_count`, which is printed. -/
def isColoringValid (client : RedisClient) : Option (ℕ × ℕ) := do
  let keys ← client.keys neighboursPattern
  let results ← client.execute (← queue keys)
  (List.range keys.length).foldlM (processKey client keys results) (0, 0)

def Ascii (text : Text) : Prop := ∀ c ∈ text, c.toNat < 128

instance (text : Text) : Decidable (Ascii text) :=
  List.decidableBAll (fun c : Char => c.toNat < 128) text

/-- `value` is the reply of a server that holds `db`, as `decode` gives it. A key of the wrong
type and bytes that do not decode have none. -/
inductive Replies (db : Db) (decode : Text → Option Text) : Queued → Value → Prop
  | absent {key : Text} (missing : db key = none) : Replies db decode (.get key) (.str none)
  | string {key text value : Text} (found : db key = some (.string text))
      (decoded : decode text = some value) : Replies db decode (.get key) (.str (some value))
  | empty {key : Text} (missing : db key = none) : Replies db decode (.smembers key) (.members [])
  | set {key : Text} {stored : Finset Text} {listed elements : List Text}
      (found : db key = some (.set stored)) (nodup : listed.Nodup)
      (mem : ∀ text, text ∈ listed ↔ text ∈ stored) (decoded : listed.mapM decode = some elements) :
      Replies db decode (.smembers key) (.members elements)

/-- The client of a server that holds `db` while the checker runs. With `decode_responses` it
decodes every reply and raises where that fails. Of the decoder only this is used: it leaves ASCII
as it is, and different bytes do not become the same text. -/
structure RedisClient.Serves (client : RedisClient) (db : Db) (decode : Text → Option Text) :
    Prop where
  ascii : ∀ text, Ascii text → decode text = some text
  injective : ∀ text text' value, decode text = some value → decode text' = some value →
    text = text'
  keys : ∃ listed, IsKeys db neighboursPattern listed ∧
    client.keys neighboursPattern = listed.mapM decode
  get : ∀ key, Ascii key → ∀ value,
    client.get key = some value ↔ Replies db decode (.get key) (.str value)
  execute : ∀ queued, (∀ q ∈ queued, Ascii q.key) → ∀ values,
    client.execute queued = some values → List.Forall₂ (Replies db decode) queued values
  returns : ∀ queued, (∀ q ∈ queued, Ascii q.key) →
    (client.execute queued ≠ none ↔ ∀ q ∈ queued, ∃ value, Replies db decode q value)

/-- The text under a key that holds a string or nothing. -/
def stringAt (db : Db) (decode : Text → Option Text) (key : Text) : Option Text :=
  match db key with
  | some (.string text) => decode text
  | _ => none

/-- GET does not raise. -/
def Readable (db : Db) (decode : Text → Option Text) (key : Text) : Prop :=
  ∀ obj, db key = some obj → ∃ text, obj = .string text ∧ decode text ≠ none

variable {db : Db} {decode : Text → Option Text} {client : RedisClient}

theorem ascii_append {front back : Text} (first : Ascii front) (second : Ascii back) :
    Ascii (front ++ back) :=
  fun c member => (List.mem_append.mp member).elim (first c) (second c)

theorem ascii_decimal (v : ℤ) : Ascii (decimal v) := by
  intro c member
  rcases mem_decimal member with rfl | digit
  · decide
  · simp only [isDigit, Bool.and_eq_true, decide_eq_true_eq] at digit
    have bound : c.val.toNat ≤ '9'.val.toNat := UInt32.le_iff_toNat_le.mp digit.2
    exact Nat.lt_of_le_of_lt bound (by decide)

theorem ascii_colorName {node : Text} (ascii : Ascii node) : Ascii (colorName node) :=
  ascii_append (by decide) (ascii_append ascii (by decide))

theorem ascii_nodeKey {v : ℤ} (range : InInt v) : Ascii (nodeKey v) := by
  rw [nodeKey_eq range]
  exact ascii_append (by decide) (ascii_append (ascii_decimal v) (by decide))

theorem replies_get {key : Text} (readable : Readable db decode key) :
    Replies db decode (.get key) (.str (stringAt db decode key)) := by
  unfold stringAt
  cases found : db key with
  | none => exact .absent found
  | some obj =>
      obtain ⟨text, rfl, decodes⟩ := readable obj found
      obtain ⟨value, decoded⟩ := Option.ne_none_iff_exists'.mp decodes
      simp only [decoded]
      exact .string found decoded

theorem eq_of_replies_get {key : Text} {value : Value}
    (replies : Replies db decode (.get key) value) : value = .str (stringAt db decode key) := by
  unfold stringAt
  cases replies with
  | absent missing => rw [missing]
  | string found decoded => rw [found, ← decoded]

theorem RedisClient.Serves.get_eq (serves : client.Serves db decode) {key : Text}
    (ascii : Ascii key) (readable : Readable db decode key) :
    client.get key = some (stringAt db decode key) :=
  (serves.get key ascii _).mpr (replies_get readable)

theorem countErrors_eq (serves : client.Serves db decode) (nodeColor : Option Text)
    {neighbors : List Text} (readable : ∀ neighbor ∈ neighbors,
      Ascii neighbor ∧ Readable db decode (colorName neighbor)) (errorCount : ℕ) :
    countErrors client (.str nodeColor) neighbors errorCount = some (errorCount +
      neighbors.countP fun neighbor => nodeColor = stringAt db decode (colorName neighbor)) := by
  induction neighbors generalizing errorCount with
  | nil => rfl
  | cons neighbor rest ih =>
      have later := ih fun n member => readable n (List.mem_cons_of_mem _ member)
      obtain ⟨ascii, here⟩ := readable neighbor List.mem_cons_self
      unfold countErrors at later ⊢
      rw [List.foldlM_cons, serves.get_eq (ascii_colorName ascii) here, Option.map_some,
        Option.bind_eq_bind, Option.bind_some, later, List.countP_cons]
      by_cases same : nodeColor = stringAt db decode (colorName neighbor)
      · rw [if_pos (congrArg Value.str same), if_pos (decide_eq_true same), Nat.add_right_comm,
          Nat.add_assoc]
      · rw [if_neg (by simpa using same), if_neg (by simpa using same), Nat.add_zero]

/-- The text in place of the node id. -/
def nodeAt (key : Text) : Text := (nodeOf key).getD []

/-- The errors found at one key. -/
def errorsAt (db : Db) (decode : Text → Option Text) (key : Text) : ℕ :=
  ((members db key).filter fun neighbor =>
    stringAt db decode (colorName (nodeAt key)) = stringAt db decode (colorName neighbor)).card

/-- What the checker needs to name the node of a key and its neighbours. -/
structure Named (db : Db) (key : Text) : Prop where
  node : nodeOf key = some (nodeAt key)
  ascii : Ascii key
  plain : Ascii (nodeAt key)
  set : ∃ stored, db key = some (.set stored)
  neighbors : ∀ neighbor ∈ members db key, Ascii neighbor

/-- What it needs to go through the key without an exception. -/
structure Clean (db : Db) (decode : Text → Option Text) (key : Text) : Prop
    extends Named db key where
  color : Readable db decode (colorName (nodeAt key))
  colors : ∀ neighbor ∈ members db key, Readable db decode (colorName neighbor)

theorem mapM_eq_some {α β : Type} {f : α → Option β} {g : α → β} {l : List α}
    (each : ∀ a ∈ l, f a = some (g a)) : l.mapM f = some (l.map g) := by
  induction l with
  | nil => rfl
  | cons a l ih =>
      rw [List.mapM_cons, each a List.mem_cons_self,
        ih fun b member => each b (List.mem_cons_of_mem _ member)]
      rfl

theorem forall₂_of_mapM {α β : Type} {f : α → Option β} {l : List α} {l' : List β}
    (mapped : l.mapM f = some l') : List.Forall₂ (fun a b => f a = some b) l l' := by
  induction l generalizing l' with
  | nil =>
      cases mapped
      exact .nil
  | cons a l ih =>
      rw [List.mapM_cons] at mapped
      obtain ⟨b, first, mapped⟩ := Option.bind_eq_some_iff.mp mapped
      obtain ⟨rest, later, same⟩ := Option.bind_eq_some_iff.mp mapped
      cases same
      exact .cons first (ih later)

theorem mapM_ne_none_iff {α β : Type} {f : α → Option β} {l : List α} :
    l.mapM f ≠ none ↔ ∀ a ∈ l, f a ≠ none := by
  induction l with
  | nil => simp
  | cons a l ih =>
      rw [List.forall_mem_cons, ← ih, List.mapM_cons]
      cases f a <;> cases l.mapM f <;> simp

theorem RedisClient.Serves.mapM_ascii (serves : client.Serves db decode) {texts : List Text}
    (ascii : ∀ text ∈ texts, Ascii text) : texts.mapM decode = some texts := by
  rw [mapM_eq_some fun text member => serves.ascii text (ascii text member), List.map_id']

/-- The commands in the pipeline. -/
def commands (keys : List Text) : List Queued :=
  keys.flatMap fun key => [.get (colorName (nodeAt key)), .smembers key]

theorem queue_eq {keys : List Text} (named : ∀ key ∈ keys, Named db key) :
    queue keys = some (commands keys) := by
  have each : keys.mapM (fun key => (nodeOf key).map fun node =>
      [Queued.get (colorName node), .smembers key]) =
      some (keys.map fun key => [.get (colorName (nodeAt key)), .smembers key]) := by
    refine mapM_eq_some fun key member => ?_
    rw [(named key member).node]
    rfl
  rw [queue, each, commands, List.flatMap_def]
  rfl

theorem ascii_commands {keys : List Text} (named : ∀ key ∈ keys, Named db key) :
    ∀ q ∈ commands keys, Ascii q.key := by
  intro q member
  obtain ⟨key, inKeys, which⟩ := List.mem_flatMap.mp member
  rcases List.mem_pair.mp which with rfl | rfl
  · exact ascii_colorName (named key inKeys).plain
  · exact (named key inKeys).ascii

/-- `elements` has the members of the set under `key` once each. -/
def ListsSet (db : Db) (key : Text) (elements : List Text) : Prop :=
  elements.Nodup ∧ ∀ text, text ∈ elements ↔ text ∈ members db key

theorem countP_eq_errorsAt {key : Text} {elements : List Text} (lists : ListsSet db key elements) :
    (elements.countP fun neighbor => stringAt db decode (colorName (nodeAt key)) =
      stringAt db decode (colorName neighbor)) = errorsAt db decode key := by
  rw [List.countP_eq_length_filter, ← List.toFinset_card_of_nodup (lists.1.filter _), errorsAt]
  congr 1
  ext text
  simp [lists.2]

theorem RedisClient.Serves.lists_of_replies (serves : client.Serves db decode) {key : Text}
    (named : Named db key) {value : Value} (replies : Replies db decode (.smembers key) value) :
    ∃ elements, value = .members elements ∧ ListsSet db key elements := by
  obtain ⟨stored, found⟩ := named.set
  have inSet : ∀ text, text ∈ members db key ↔ text ∈ stored := by simp [members, found]
  cases replies with
  | empty missing =>
      rw [missing] at found
      cases found
  | set found' nodup mem decoded =>
      rw [found] at found'
      cases found'
      have ascii := fun text member =>
        named.neighbors text ((inSet text).mpr ((mem text).mp member))
      rw [serves.mapM_ascii ascii] at decoded
      cases decoded
      exact ⟨_, rfl, nodup, fun text => (mem text).trans (inSet text).symm⟩

/-- The results for the keys in `pairs`, each with the elements of its set. -/
def resultsOf (db : Db) (decode : Text → Option Text) (pairs : List (Text × List Text)) :
    List Value :=
  pairs.flatMap fun p => [.str (stringAt db decode (colorName (nodeAt p.1))), .members p.2]

theorem RedisClient.Serves.pairs_of_replies (serves : client.Serves db decode) {keys : List Text}
    (named : ∀ key ∈ keys, Named db key) {values : List Value}
    (replies : List.Forall₂ (Replies db decode) (commands keys) values) :
    ∃ pairs : List (Text × List Text), pairs.map Prod.fst = keys ∧
      (∀ p ∈ pairs, ListsSet db p.1 p.2) ∧ values = resultsOf db decode pairs := by
  induction keys generalizing values with
  | nil =>
      cases replies
      exact ⟨[], rfl, by simp, rfl⟩
  | cons key keys ih =>
      obtain ⟨color, values, first, more, rfl⟩ := List.forall₂_cons_left_iff.mp replies
      obtain ⟨set, values, second, rest, rfl⟩ := List.forall₂_cons_left_iff.mp more
      obtain ⟨elements, rfl, lists⟩ :=
        serves.lists_of_replies (named key List.mem_cons_self) second
      obtain ⟨pairs, same, all, rfl⟩ :=
        ih (fun k member => named k (List.mem_cons_of_mem _ member)) rest
      refine ⟨(key, elements) :: pairs, by rw [List.map_cons, same],
        List.forall_mem_cons.mpr ⟨lists, all⟩, ?_⟩
      rw [eq_of_replies_get first]
      rfl

theorem RedisClient.Serves.execute_eq (serves : client.Serves db decode) {keys : List Text}
    (clean : ∀ key ∈ keys, Clean db decode key) :
    ∃ pairs : List (Text × List Text), pairs.map Prod.fst = keys ∧
      (∀ p ∈ pairs, ListsSet db p.1 p.2) ∧
      client.execute (commands keys) = some (resultsOf db decode pairs) := by
  have named : ∀ key ∈ keys, Named db key := fun key member => (clean key member).toNamed
  have answered : ∀ q ∈ commands keys, ∃ value, Replies db decode q value := by
    intro q member
    obtain ⟨key, inKeys, which⟩ := List.mem_flatMap.mp member
    rcases List.mem_pair.mp which with rfl | rfl
    · exact ⟨_, replies_get (clean key inKeys).color⟩
    · obtain ⟨stored, found⟩ := (named key inKeys).set
      refine ⟨_, .set found (Finset.nodup_toList stored) (fun _ => Finset.mem_toList)
        (serves.mapM_ascii fun text member => (named key inKeys).neighbors text ?_)⟩
      rw [Finset.mem_toList] at member
      simpa [members, found] using member
  have ascii := ascii_commands named
  obtain ⟨values, returned⟩ :=
    Option.ne_none_iff_exists'.mp ((serves.returns _ ascii).mpr answered)
  obtain ⟨pairs, same, all, rfl⟩ :=
    serves.pairs_of_replies named (serves.execute _ ascii values returned)
  exact ⟨pairs, same, all, returned⟩

/-- Two results for each key. -/
theorem getElem?_pairs {α β : Type} (f g : α → β) (l : List α) (i : ℕ) :
    (l.flatMap fun a => [f a, g a])[i * 2]? = l[i]?.map f ∧
      (l.flatMap fun a => [f a, g a])[i * 2 + 1]? = l[i]?.map g := by
  induction l generalizing i with
  | nil => simp
  | cons a l ih =>
      cases i with
      | zero => exact ⟨rfl, rfl⟩
      | succ i => simpa [Nat.add_mul, List.flatMap_cons] using ih i

theorem processKey_eq (serves : client.Serves db decode) {pairs : List (Text × List Text)}
    (clean : ∀ p ∈ pairs, Clean db decode p.1) (lists : ∀ p ∈ pairs, ListsSet db p.1 p.2)
    (counts : ℕ × ℕ) {i : ℕ} {p : Text × List Text} (found : pairs[i]? = some p) :
    processKey client (pairs.map Prod.fst) (resultsOf db decode pairs) counts i =
      some (counts.1 + errorsAt db decode p.1, counts.2 + 1) := by
  have member := List.mem_of_getElem? found
  have ready := clean p member
  have key : (pairs.map Prod.fst)[i]? = some p.1 := by rw [List.getElem?_map, found]; rfl
  obtain ⟨color, neighbors⟩ := getElem?_pairs
    (fun p : Text × List Text => Value.str (stringAt db decode (colorName (nodeAt p.1))))
    (fun p => .members p.2) pairs i
  rw [found, Option.map_some] at color neighbors
  rw [processKey, resultsOf, key, color, neighbors, Option.bind_eq_bind, Option.bind_some,
    ready.node, Option.bind_eq_bind, Option.bind_some]
  change (countErrors client _ _ _ >>= _) = _
  rw [countErrors_eq serves, countP_eq_errorsAt (lists p member)]
  · rfl
  · intro neighbor inList
    have inSet := ((lists p member).2 neighbor).mp inList
    exact ⟨ready.neighbors neighbor inSet, ready.colors neighbor inSet⟩

/-- The checker adds up the errors at the keys. -/
theorem isColoringValid_eq (serves : client.Serves db decode) {keys : List Text}
    (listed : client.keys neighboursPattern = some keys)
    (clean : ∀ key ∈ keys, Clean db decode key) :
    isColoringValid client = some ((keys.map (errorsAt db decode)).sum, keys.length) := by
  have queued := queue_eq fun key member => (clean key member).toNamed
  obtain ⟨pairs, rfl, lists, returned⟩ := serves.execute_eq clean
  have ready : ∀ p ∈ pairs, Clean db decode p.1 :=
    fun p member => clean p.1 (List.mem_map_of_mem member)
  have passes : ∀ m ≤ pairs.length, (List.range m).foldlM (processKey client
      (pairs.map Prod.fst) (resultsOf db decode pairs)) (0, 0) =
      some (((pairs.take m).map fun p => errorsAt db decode p.1).sum, m) := by
    intro m
    induction m with
    | zero => exact fun _ => rfl
    | succ m ih =>
        intro less
        have found : pairs[m]? = some pairs[m] := List.getElem?_eq_getElem less
        rw [List.range_succ, List.foldlM_append, ih (by omega), Option.bind_eq_bind,
          Option.bind_some, List.foldlM_cons, processKey_eq serves ready lists _ found,
          List.take_add_one, found, Option.toList_some, List.map_append, List.sum_append,
          List.map_singleton, List.sum_singleton]
        rfl
  rw [isColoringValid, listed, Option.bind_eq_bind, Option.bind_some, queued, Option.bind_eq_bind,
    Option.bind_some, returned, Option.bind_eq_bind, Option.bind_some, List.length_map,
    passes _ (Nat.le_refl _), List.take_length, List.map_map]
  rfl

theorem nodeOf_nodeKey {v : ℤ} (range : InInt v) : nodeOf (nodeKey v) = some (decimal v) := by
  have digits : '_' ∉ decimal v := fun member => absurd (mem_decimal member) (by decide)
  have front : "node_".toList = "node".toList ++ ['_'] := by decide
  have back : "_neighbours".toList = '_' :: "neighbours".toList := by decide
  rw [nodeKey_eq range, nodeOf, front, back, List.append_assoc, List.singleton_append,
    List.splitOn_append_cons_self_of_not_mem (by decide),
    List.splitOn_append_cons_self_of_not_mem digits]
  rfl

theorem colorName_decimal {v : ℤ} (range : InInt v) : colorName (decimal v) = colorKey v :=
  (colorKey_eq range).symm

/-- The nodes of a list of edges. -/
def nodes (edges : List (ℤ × ℤ)) : Finset ℤ := (edges.flatMap fun e => [e.1, e.2]).toFinset

theorem mem_nodes {edges : List (ℤ × ℤ)} {v : ℤ} : v ∈ nodes edges ↔ Mentioned edges v := by
  simp only [nodes, List.mem_toFinset, List.mem_flatMap, List.mem_pair, Mentioned, Joined]
  constructor
  · rintro ⟨⟨a, b⟩, member, rfl | rfl⟩
    · exact ⟨b, Or.inr member⟩
    · exact ⟨a, Or.inl member⟩
  · rintro ⟨u, edge | edge⟩
    · exact ⟨_, edge, Or.inr rfl⟩
    · exact ⟨_, edge, Or.inl rfl⟩

/-- The edges of the stored graph between equal colours, where two missing colours are
equal. -/
def conflicts (edges : List (ℤ × ℤ)) (db : Db) : SimpleGraph {v // v ∈ nodes edges} where
  Adj u v := u ≠ v ∧ Joined edges u v ∧ db (colorKey u) = db (colorKey v)
  symm := ⟨fun _ _ adjacent => ⟨adjacent.1.symm, adjacent.2.1.symm, adjacent.2.2.symm⟩⟩
  loopless := ⟨fun _ adjacent => adjacent.1 rfl⟩

instance (edges : List (ℤ × ℤ)) (db : Db) : DecidableRel (conflicts edges db).Adj :=
  fun _ _ => inferInstanceAs (Decidable (_ ∧ _ ∧ _))

section Graph

variable {edges : List (ℤ × ℤ)}

theorem apart_of_joined (plain : ∀ e ∈ edges, e.1 ≠ e.2) {u v : ℤ} (joined : Joined edges u v) :
    u ≠ v := by
  rintro rfl
  rcases joined with edge | edge <;> exact plain _ edge rfl

theorem RedisClient.Serves.stringAt_eq_iff (serves : client.Serves db decode) {key key' : Text}
    (readable : Readable db decode key) (readable' : Readable db decode key') :
    stringAt db decode key = stringAt db decode key' ↔ db key = db key' := by
  constructor
  · intro same
    have first := replies_get readable
    have second := replies_get readable'
    rw [same] at first
    revert first second
    generalize stringAt db decode key' = value
    intro first second
    -- Both are missing, or both are strings with one decoded text.
    cases first with
    | absent missing =>
        cases second with
        | absent missing' => rw [missing, missing']
    | string found decoded =>
        cases second with
        | string found' decoded' =>
            rw [found, found', serves.injective _ _ _ decoded decoded']
  · intro same
    unfold stringAt
    rw [same]

section Held

variable (holds : HoldsGraph edges db) (range : ∀ e ∈ edges, IntEdge e)

include holds range

theorem named_nodeKey {v : ℤ} (mentioned : Mentioned edges v) :
    Named db (nodeKey v) ∧ nodeAt (nodeKey v) = decimal v := by
  have inInt := mentioned.inInt range
  have node : nodeAt (nodeKey v) = decimal v := by rw [nodeAt, nodeOf_nodeKey inInt]; rfl
  refine ⟨⟨by rw [node, nodeOf_nodeKey inInt], ascii_nodeKey inInt, ?_, ?_, ?_⟩, node⟩
  · rw [node]
    exact ascii_decimal v
  · have present := (holds.keys _ (matches_nodeKey inInt)).mpr ⟨v, mentioned, rfl⟩
    obtain ⟨obj, found⟩ := Option.ne_none_iff_exists'.mp present
    obtain ⟨stored, rfl⟩ := holds.sets v obj inInt found
    exact ⟨stored, found⟩
  · intro neighbor member
    obtain ⟨u, _, rfl⟩ := (holds.members v neighbor inInt).mp member
    exact ascii_decimal u

/-- The keys are those of the nodes. -/
theorem toFinset_keys {keys : List Text} (isKeys : IsKeys db neighboursPattern keys) :
    keys.toFinset = Finset.univ.image fun v : {v // v ∈ nodes edges} => nodeKey v := by
  ext key
  rw [List.mem_toFinset, isKeys.2, Finset.mem_image]
  constructor
  · rintro ⟨present, matched⟩
    obtain ⟨v, mentioned, rfl⟩ := (holds.keys key matched).mp present
    exact ⟨⟨v, mem_nodes.mpr mentioned⟩, Finset.mem_univ _, rfl⟩
  · rintro ⟨v, _, rfl⟩
    have mentioned := mem_nodes.mp v.2
    have matched := matches_nodeKey (mentioned.inInt range)
    exact ⟨(holds.keys _ matched).mpr ⟨v, mentioned, rfl⟩, matched⟩

theorem RedisClient.Serves.keys_eq (serves : client.Serves db decode) :
    ∃ keys, IsKeys db neighboursPattern keys ∧ client.keys neighboursPattern = some keys ∧
      ∀ key ∈ keys, ∃ v, Mentioned edges v ∧ nodeKey v = key := by
  obtain ⟨keys, isKeys, listed⟩ := serves.keys
  have ofNode : ∀ key ∈ keys, ∃ v, Mentioned edges v ∧ nodeKey v = key := by
    intro key member
    rw [← List.mem_toFinset, toFinset_keys holds range isKeys] at member
    obtain ⟨v, _, same⟩ := Finset.mem_image.mp member
    exact ⟨v, mem_nodes.mp v.2, same⟩
  refine ⟨keys, isKeys, ?_, ofNode⟩
  rw [listed]
  refine serves.mapM_ascii fun key member => ?_
  obtain ⟨v, mentioned, rfl⟩ := ofNode key member
  exact ascii_nodeKey (mentioned.inInt range)

variable (colors : ∀ v, Mentioned edges v → Readable db decode (colorKey v))

include colors

theorem clean_nodeKey {v : ℤ} (mentioned : Mentioned edges v) : Clean db decode (nodeKey v) := by
  have inInt := mentioned.inInt range
  obtain ⟨named, node⟩ := named_nodeKey holds range mentioned
  refine ⟨named, ?_, ?_⟩
  · rw [node, colorName_decimal inInt]
    exact colors v mentioned
  · intro neighbor member
    obtain ⟨u, joined, rfl⟩ := (holds.members v neighbor inInt).mp member
    have other : Mentioned edges u := ⟨v, joined.symm⟩
    rw [colorName_decimal (other.inInt range)]
    exact colors u other

variable (plain : ∀ e ∈ edges, e.1 ≠ e.2) (serves : client.Serves db decode)

include plain serves

/-- At a node the checker finds its conflicts. -/
theorem errorsAt_nodeKey (v : {v // v ∈ nodes edges}) :
    errorsAt db decode (nodeKey v) = (conflicts edges db).degree v := by
  have mentioned := mem_nodes.mp v.2
  have inInt := mentioned.inInt range
  obtain ⟨_, node⟩ := named_nodeKey holds range mentioned
  have inner : ∀ u, Joined edges u v →
      (stringAt db decode (colorName (nodeAt (nodeKey v))) =
          stringAt db decode (colorName (decimal u)) ↔ db (colorKey v) = db (colorKey u)) := by
    intro u joined
    have other : Mentioned edges u := ⟨v, joined.symm⟩
    rw [node, colorName_decimal inInt, colorName_decimal (other.inInt range),
      serves.stringAt_eq_iff (colors v mentioned) (colors u other)]
  have found : ((members db (nodeKey v)).filter fun neighbor =>
      stringAt db decode (colorName (nodeAt (nodeKey v))) =
        stringAt db decode (colorName neighbor)) =
      ((conflicts edges db).neighborFinset v).image fun u => decimal u.1 := by
    ext text
    simp only [Finset.mem_filter, holds.members v text inInt, Finset.mem_image,
      SimpleGraph.mem_neighborFinset]
    constructor
    · rintro ⟨⟨u, joined, rfl⟩, same⟩
      refine ⟨⟨u, mem_nodes.mpr ⟨v, joined.symm⟩⟩, ⟨?_, joined.symm, (inner u joined).mp same⟩, rfl⟩
      exact fun equal => apart_of_joined plain joined (congrArg Subtype.val equal).symm
    · rintro ⟨u, ⟨_, joined, same⟩, rfl⟩
      exact ⟨⟨u, joined.symm, rfl⟩, (inner u joined.symm).mpr same⟩
  have injective : Function.Injective fun u : {v // v ∈ nodes edges} => decimal u.1 :=
    decimal_injective.comp Subtype.val_injective
  rw [errorsAt, found, Finset.card_image_of_injective _ injective,
    SimpleGraph.card_neighborFinset_eq_degree]

/-- The checker counts the conflicts and the nodes. -/
theorem isColoringValid_conflicts : isColoringValid client =
    some (2 * (conflicts edges db).edgeFinset.card, (nodes edges).card) := by
  obtain ⟨keys, isKeys, listed, ofNode⟩ := serves.keys_eq holds range
  have image := toFinset_keys holds range isKeys
  have injective : Function.Injective fun v : {v // v ∈ nodes edges} => nodeKey v := by
    intro u v same
    exact Subtype.ext (nodeKey_injective ((mem_nodes.mp u.2).inInt range)
      ((mem_nodes.mp v.2).inInt range) same)
  have clean : ∀ key ∈ keys, Clean db decode key := by
    intro key member
    obtain ⟨v, mentioned, rfl⟩ := ofNode key member
    exact clean_nodeKey holds range colors mentioned
  have total : (keys.map (errorsAt db decode)).sum = 2 * (conflicts edges db).edgeFinset.card :=
    calc (keys.map (errorsAt db decode)).sum
      _ = ∑ key ∈ keys.toFinset, errorsAt db decode key := (List.sum_toFinset _ isKeys.1).symm
      _ = ∑ v : {v // v ∈ nodes edges}, errorsAt db decode (nodeKey v) := by
          rw [image, Finset.sum_image fun u _ v _ same => injective same]
      _ = ∑ v, (conflicts edges db).degree v :=
          Finset.sum_congr rfl fun v _ => errorsAt_nodeKey holds range colors plain serves v
      _ = 2 * (conflicts edges db).edgeFinset.card :=
          SimpleGraph.sum_degrees_eq_twice_card_edges _
  have count : keys.length = (nodes edges).card := by
    rw [← List.toFinset_card_of_nodup isKeys.1, image,
      Finset.card_image_of_injective _ injective, Finset.card_univ, Fintype.card_coe]
  rw [isColoringValid_eq serves listed clean, total, count]

end Held

end Graph

/-- There are no conflicts just when the colouring is proper. -/
theorem card_conflicts_eq_zero {edges : List (ℤ × ℤ)} (db : Db) (plain : ∀ e ∈ edges, e.1 ≠ e.2) :
    (conflicts edges db).edgeFinset.card = 0 ↔
      ∀ u v, Joined edges u v → db (colorKey u) ≠ db (colorKey v) := by
  rw [Finset.card_eq_zero, SimpleGraph.edgeFinset, Set.toFinset_eq_empty,
    SimpleGraph.edgeSet_eq_empty, SimpleGraph.eq_bot_iff_forall_not_adj]
  constructor
  · intro none u v joined same
    refine none ⟨u, mem_nodes.mpr ⟨v, joined.symm⟩⟩ ⟨v, mem_nodes.mpr ⟨u, joined⟩⟩
      ⟨?_, joined, same⟩
    exact fun equal => apart_of_joined plain joined (congrArg Subtype.val equal)
  · intro proper u v adjacent
    exact proper u v adjacent.2.1 adjacent.2.2

/-- On a graph without loops, with strings that decode or nothing under the colour keys, the
checker returns twice the number of the edges between equal colours, whatever the order of keys
and elements, and has counted the nodes. -/
theorem checker_exact {edges : List (ℤ × ℤ)} {db : Db} (built : Built edges db)
    (plain : ∀ e ∈ edges, e.1 ≠ e.2) {client : RedisClient} {decode : Text → Option Text}
    (serves : client.Serves db decode)
    (colors : ∀ v, Mentioned edges v → Readable db decode (colorKey v)) :
    isColoringValid client =
      some (2 * (conflicts edges db).edgeFinset.card, (nodes edges).card) ∧
    ((conflicts edges db).edgeFinset.card = 0 ↔
      ∀ u v, Joined edges u v → db (colorKey u) ≠ db (colorKey v)) := by
  obtain ⟨holds, range⟩ := built.holds
  exact ⟨isColoringValid_conflicts holds range colors plain serves,
    card_conflicts_eq_zero db plain⟩

/-- A decoder that accepts ASCII only. -/
def decodeAscii (text : Text) : Option Text :=
  if Ascii text then some text else none

theorem decodeAscii_eq_some {text value : Text} (decoded : decodeAscii text = some value) :
    text = value := by
  unfold decodeAscii at decoded
  split at decoded
  · exact Option.some.inj decoded
  · cases decoded

/-- A choice of the replies. -/
theorem exists_answer (db : Db) (decode : Text → Option Text) : ∃ answer : Queued → Option Value,
    ∀ q, (answer q ≠ none ↔ ∃ value, Replies db decode q value) ∧
      ∀ value, answer q = some value → Replies db decode q value := by
  suffices each : ∀ q, ∃ a : Option Value, (a ≠ none ↔ ∃ value, Replies db decode q value) ∧
      ∀ value, a = some value → Replies db decode q value from Classical.skolem.mp each
  intro q
  by_cases answered : ∃ value, Replies db decode q value
  · obtain ⟨value, replies⟩ := answered
    refine ⟨some value, iff_of_true (by simp) ⟨value, replies⟩, ?_⟩
    rintro value' ⟨⟩
    exact replies
  · exact ⟨none, iff_of_false (by simp) answered, by simp⟩

/-- Every database with a listing of its keys has a client. -/
theorem exists_serves (db : Db) {listed : List Text} (isKeys : IsKeys db neighboursPattern listed) :
    ∃ client : RedisClient, client.Serves db decodeAscii := by
  obtain ⟨answer, answers⟩ := exists_answer db decodeAscii
  refine ⟨⟨fun _ => listed.mapM decodeAscii, fun key => if answer (.get key) = none then none else
    some (stringAt db decodeAscii key), fun queued => queued.mapM answer⟩,
    fun _ ascii => if_pos ascii, ?_, ⟨listed, isKeys, rfl⟩, ?_, ?_, ?_⟩
  · intro text text' value decoded decoded'
    rw [decodeAscii_eq_some decoded, decodeAscii_eq_some decoded']
  · intro key _ value
    obtain ⟨answered, replies⟩ := answers (.get key)
    by_cases silent : answer (.get key) = none
    · simp only [if_pos silent]
      exact iff_of_false (by simp) fun reply => answered.mpr ⟨_, reply⟩ silent
    · obtain ⟨value', given⟩ := Option.ne_none_iff_exists'.mp silent
      have reply := replies value' given
      rw [eq_of_replies_get reply] at reply
      simp only [if_neg silent, Option.some.injEq]
      constructor
      · rintro rfl
        exact reply
      · intro reply'
        exact (Value.str.inj (eq_of_replies_get reply')).symm
  · intro queued _ values returned
    exact (forall₂_of_mapM returned).imp fun q value => (answers q).2 value
  · intro queued _
    simp only [mapM_ne_none_iff, answers]

/-- A path as `add_graph` leaves it: all colours are 0. -/
theorem checker_uncolored : ∃ db client errors, Built [(0, 1), (1, 2)] db ∧
    RedisClient.Serves client db decodeAscii ∧
    isColoringValid client = some (errors, 3) ∧ errors ≠ 0 := by
  obtain ⟨s', _, loads, filled⟩ := exists_filled_edges .keydb "0,1\n1,2\n".toList
    [(0, 1), (1, 2)] (by decide) (by decide) (by simp [PlainEdge, IntEdge, InInt])
  obtain ⟨client, serves⟩ := exists_serves s'.db filled.holds.isKeys
  have readable : ∀ v, Mentioned [(0, 1), (1, 2)] v →
      Readable s'.db decodeAscii (colorKey v) := by
    intro v mentioned obj found
    rw [loads.color v mentioned] at found
    cases found
    exact ⟨_, rfl, by decide⟩
  obtain ⟨checked, proper⟩ := checker_exact filled.built (by simp) serves readable
  refine ⟨_, client, _, filled.built, serves, checked, fun zero => ?_⟩
  have same : s'.db (colorKey 0) = s'.db (colorKey 1) := by
    rw [loads.color 0 ⟨1, by decide⟩, loads.color 1 ⟨0, by decide⟩]
  exact proper.mp (by omega) 0 1 (by decide) same

/-- One edge, with the byte 255 as the colour of a node: no client that cannot decode it lets the
checker come to a result. -/
theorem undecodable_color_raises : ∃ db : Db, Built [(0, 1)] db ∧
    (∀ v, Mentioned [(0, 1)] v → ∃ text, db (colorKey v) = some (.string text)) ∧
    (∃ client : RedisClient, client.Serves db decodeAscii) ∧
    ∀ (client : RedisClient) (decode : Text → Option Text), client.Serves db decode →
      decode [Char.ofNat 255] = none → isColoringValid client = none := by
  obtain ⟨s', _, loads, filled⟩ := exists_filled_edges .keydb "0,1\n".toList
    [(0, 1)] (by decide) (by decide) (by simp [PlainEdge, IntEdge, InInt])
  have inInt : InInt 0 := ⟨by decide, by decide⟩
  have other := not_matches_colorKey inInt
  have built := filled.built.write (colorKey 0) (some (.string [Char.ofNat 255])) other
  obtain ⟨holds, range⟩ := built.holds
  have held : HoldsNatGraph [(0, 1)] _ := ⟨holds, by simp [IntEdge, InInt]⟩
  have first : Mentioned [(0, 1)] 0 := ⟨1, by decide⟩
  refine ⟨_, built, ?_, exists_serves _ held.isKeys, ?_⟩
  · intro v mentioned
    by_cases zero : colorKey v = colorKey 0
    · rw [zero, Function.update_self]
      exact ⟨_, rfl⟩
    · rw [Function.update_of_ne zero, loads.color v mentioned]
      exact ⟨_, rfl⟩
  · intro client decode serves undecoded
    obtain ⟨keys, isKeys, listed, ofNode⟩ := serves.keys_eq holds range
    have named : ∀ key ∈ keys,
        Named (Function.update s'.db (colorKey 0) (some (.string [Char.ofNat 255]))) key := by
      intro key member
      obtain ⟨v, mentioned, rfl⟩ := ofNode key member
      exact (named_nodeKey holds range mentioned).1
    obtain ⟨_, node⟩ := named_nodeKey holds range first
    have member : nodeKey 0 ∈ keys := by
      rw [← List.mem_toFinset, toFinset_keys holds range isKeys]
      exact Finset.mem_image.mpr ⟨⟨0, mem_nodes.mpr first⟩, Finset.mem_univ _, rfl⟩
    have raised : client.execute (commands keys) = none := by
      by_contra returned
      obtain ⟨value, replies⟩ := (serves.returns _ (ascii_commands named)).mp returned
        (.get (colorName (nodeAt (nodeKey 0))))
        (List.mem_flatMap.mpr ⟨_, member, List.mem_cons_self⟩)
      rw [node, colorName_decimal inInt] at replies
      cases replies with
      | absent missing => simp at missing
      | string found decoded =>
          rw [Function.update_self] at found
          cases found
          rw [undecoded] at decoded
          cases decoded
    rw [isColoringValid, listed, Option.bind_eq_bind, Option.bind_some, queue_eq named,
      Option.bind_eq_bind, Option.bind_some, raised]
    rfl

end DistributedColoring.CheckColor

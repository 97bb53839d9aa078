import DistributedColoring.Reload
import DistributedColoring.WorkAssignment
import Mathlib.Data.Sym.Sym2.Order

set_option autoImplicit false

/- The names of the keys: the locks that `read_color_of_neighbors` formats, and the
neighbours keys that `fetch_keys` takes apart again. -/
namespace DistributedColoring

open CText

/-- `get_node_id`; a name without the usual beginning is an error. -/
def getNodeId (name : Text) : ℤ :=
  if "node_".toList.isPrefixOf name then atoi (name.drop 5) else -1

/-- `extract_number_from_string`, the text after the first underscore. -/
def extractNumberFromString (str : Text) : Option Text :=
  match str.dropWhile (· ≠ '_') with
  | [] => none
  | _ :: number => some number

/-- The texts in a lock of sync/color.c. -/
structure LockNames where
  lockKey1 : Text
  lockKey2 : Text
  turnKey : Text
  nodeName : Text
  deriving DecidableEq

/-- The lock that `read_color_of_neighbors` builds from the name of the node and that of
the neighbour; `none` where the node name has no underscore. -/
def lockNames (nodeId nbrId : Text) : Option LockNames :=
  (extractNumberFromString nodeId).map fun charNode =>
    let bothId := snprintf 64
      (if atoi nbrId < getNodeId nodeId then nbrId ++ '_' :: charNode
      else charNode ++ '_' :: nbrId)
    { lockKey1 := snprintf 128 ("flag_".toList ++ (bothId ++ '_' :: charNode))
      lockKey2 := snprintf 128 ("flag_".toList ++ (bothId ++ '_' :: nbrId))
      turnKey := snprintf 128 ("turn_".toList ++ bothId)
      nodeName := snprintf 128 charNode }

def LockNames.keys (names : LockNames) : List Text :=
  [names.lockKey1, names.lockKey2, names.turnKey]

def flagText (low high v : ℤ) : Text :=
  "flag_".toList ++ (decimal low ++ '_' :: (decimal high ++ '_' :: decimal v))

def turnText (low high : ℤ) : Text :=
  "turn_".toList ++ (decimal low ++ '_' :: decimal high)

/-- The same lock with nothing cut off. -/
def fullNames (u v : ℤ) : LockNames where
  lockKey1 := flagText (min u v) (max u v) u
  lockKey2 := flagText (min u v) (max u v) v
  turnKey := turnText (min u v) (max u v)
  nodeName := decimal u

theorem flagText_inj {a b c a' b' c' : ℤ} (same : flagText a b c = flagText a' b' c') :
    a = a' ∧ b = b' ∧ c = c' := by
  have first := decimal_append_inj (by decide) (List.append_cancel_left same)
  have second := decimal_append_inj (by decide) first.2
  exact ⟨first.1, second.1, decimal_injective second.2⟩

theorem turnText_inj {a b a' b' : ℤ} (same : turnText a b = turnText a' b') :
    a = a' ∧ b = b' := by
  have first := decimal_append_inj (by decide) (List.append_cancel_left same)
  exact ⟨first.1, decimal_injective first.2⟩

theorem flagText_ne_turnText (a b c a' b' : ℤ) : flagText a b c ≠ turnText a' b' := by
  intro same
  have heads : some 'f' = some 't' := congrArg List.head? same
  exact absurd heads (by decide)

theorem snprintf_eq {size : ℕ} {text : Text} (fits : text.length < size) :
    snprintf size text = text :=
  List.take_of_length_le (by omega)

theorem getNodeId_nodeName {v : ℤ} (range : InInt v) : getNodeId (nodeName v) = v := by
  have value := atoi_decimal range [] (by simp)
  rw [List.append_nil] at value
  have front : "node_".toList.isPrefixOf (nodeName v) = true :=
    List.isPrefixOf_iff_prefix.mpr (List.prefix_append _ _)
  rw [getNodeId, if_pos front]
  exact value

theorem extractNumber_nodeName (v : ℤ) :
    extractNumberFromString (nodeName v) = some (decimal v) := by
  have front : "node_".toList = ['n', 'o', 'd', 'e'] ++ ['_'] := by decide
  unfold extractNumberFromString nodeName
  rw [front, List.append_assoc, List.dropWhile_append_of_pos (by simp)]
  rfl

/-- The buffers hold the names of any two 32-bit ids. -/
theorem lockNames_eq {u v : ℤ} (rangeU : InInt u) (rangeV : InInt v) :
    lockNames (nodeName u) (decimal v) = some (fullNames u v) := by
  have shortU := length_decimal_le rangeU
  have shortV := length_decimal_le rangeV
  have value := atoi_decimal rangeV [] (by simp)
  rw [List.append_nil] at value
  have both : snprintf 64 (if atoi (decimal v) < getNodeId (nodeName u) then
      decimal v ++ '_' :: decimal u else decimal u ++ '_' :: decimal v) =
      decimal (min u v) ++ '_' :: decimal (max u v) := by
    rw [value, getNodeId_nodeName rangeU]
    split
    · rename_i less
      rw [min_eq_right (by omega), max_eq_left (by omega)]
      apply snprintf_eq
      simp only [List.length_append, List.length_cons]
      omega
    · rename_i less
      rw [min_eq_left (by omega), max_eq_right (by omega)]
      apply snprintf_eq
      simp only [List.length_append, List.length_cons]
      omega
  have shortLow : (decimal (min u v)).length ≤ 11 := by
    rcases min_choice u v with low | low <;> rw [low] <;> assumption
  have shortHigh : (decimal (max u v)).length ≤ 11 := by
    rcases max_choice u v with high | high <;> rw [high] <;> assumption
  have flag : ∀ w, (decimal w).length ≤ 11 → snprintf 128 ("flag_".toList ++
      ((decimal (min u v) ++ '_' :: decimal (max u v)) ++ '_' :: decimal w)) =
      flagText (min u v) (max u v) w := by
    intro w short
    rw [snprintf_eq]
    · unfold flagText
      rw [List.append_assoc, List.cons_append]
    · simp only [List.length_append, List.length_cons]
      change 5 + _ < 128
      omega
  have turn : snprintf 128 ("turn_".toList ++
      (decimal (min u v) ++ '_' :: decimal (max u v))) = turnText (min u v) (max u v) := by
    apply snprintf_eq
    simp only [List.length_append, List.length_cons]
    change 5 + _ < 128
    omega
  have name : snprintf 128 (decimal u) = decimal u := snprintf_eq (by omega)
  rw [lockNames, extractNumber_nodeName, Option.map_some]
  simp only [both, flag u shortU, flag v shortV, turn, name, fullNames]

/-- The clients name nodes by numbers; these are the texts they stand for. -/
theorem lockNames_eq_text {u v : ℕ} (rangeU : InInt u) (rangeV : InInt v) :
    lockNames (nodeName u) (decimal v) = some
      { lockKey1 := (ClientGraphPetersonLock.mk u v).lockKey1.text
        lockKey2 := (ClientGraphPetersonLock.mk u v).lockKey2.text
        turnKey := (ClientGraphPetersonLock.mk u v).turnKey.text
        nodeName := decimal (ClientGraphPetersonLock.mk u v).nodeName } := by
  rw [lockNames_eq rangeU rangeV]
  unfold fullNames ClientGraphPetersonLock.lockKey1 ClientGraphPetersonLock.lockKey2
    ClientGraphPetersonLock.turnKey ClientGraphPetersonLock.bothId
  by_cases less : v < u
  · have low : min (u : ℤ) v = v := min_eq_right (by omega)
    have high : max (u : ℤ) v = u := max_eq_left (by omega)
    simp only [less, if_true, low, high]
    rfl
  · have low : min (u : ℤ) v = u := min_eq_left (by omega)
    have high : max (u : ℤ) v = v := max_eq_right (by omega)
    simp only [less, if_false, low, high]
    rfl

theorem fullNames_keys {u v : ℤ} {key : Text} (member : key ∈ (fullNames u v).keys) :
    (∃ w, key = flagText (min u v) (max u v) w) ∨ key = turnText (min u v) (max u v) := by
  simp only [LockNames.keys, fullNames, List.mem_cons, List.not_mem_nil, or_false] at member
  rcases member with flag | flag | turn
  · exact Or.inl ⟨_, flag⟩
  · exact Or.inl ⟨_, flag⟩
  · exact Or.inr turn

/-- A key tells the two ids whose lock it belongs to. -/
theorem fullNames_disjoint {u v x y : ℤ} {key : Text} (member : key ∈ (fullNames u v).keys)
    (member' : key ∈ (fullNames x y).keys) : min u v = min x y ∧ max u v = max x y := by
  rcases fullNames_keys member with ⟨w, flag⟩ | turn
  · rcases fullNames_keys member' with ⟨w', flag'⟩ | turn'
    · have parts := flagText_inj (flag.symm.trans flag')
      exact ⟨parts.1, parts.2.1⟩
    · exact absurd (flag.symm.trans turn') (flagText_ne_turnText _ _ _ _ _)
  · rcases fullNames_keys member' with ⟨w', flag'⟩ | turn'
    · exact absurd (flag'.symm.trans turn) (flagText_ne_turnText _ _ _ _ _)
    · exact turnText_inj (turn.symm.trans turn')

theorem fullNames_ne_node {u v : ℤ} {key : Text} (member : key ∈ (fullNames u v).keys)
    (rest : Text) : key ≠ "node_".toList ++ rest := by
  intro same
  rcases fullNames_keys member with ⟨w, flag⟩ | turn
  · have heads : some 'f' = some 'n' := congrArg List.head? (flag.symm.trans same)
    exact absurd heads (by decide)
  · have heads : some 't' = some 'n' := congrArg List.head? (turn.symm.trans same)
    exact absurd heads (by decide)

/-- The two clients of an edge build the same lock with the sides exchanged, no name is
cut off, and no key is one of another edge or of a node. -/
theorem lock_naming (u v : ℤ) (rangeU : InInt u) (rangeV : InInt v) (apart : u ≠ v) :
    ∃ L L', lockNames (nodeName u) (decimal v) = some L ∧
      lockNames (nodeName v) (decimal u) = some L' ∧
      L.turnKey = L'.turnKey ∧ L.lockKey1 = L'.lockKey2 ∧ L.lockKey2 = L'.lockKey1 ∧
      L.nodeName ≠ L'.nodeName ∧ L = fullNames u v ∧ L' = fullNames v u ∧
      (∀ x y M, InInt x → InInt y → ¬ (x = u ∧ y = v ∨ x = v ∧ y = u) →
        lockNames (nodeName x) (decimal y) = some M →
        ∀ key ∈ L.keys, ∀ key' ∈ M.keys, key ≠ key') ∧
      ∀ k : ℤ, ∀ suffix ∈ ["_color".toList, "_status".toList, "_neighbours".toList],
        ∀ key ∈ L.keys, key ≠ "node_".toList ++ (decimal k ++ suffix) := by
  have low : min u v = min v u := min_comm u v
  have high : max u v = max v u := max_comm u v
  refine ⟨_, _, lockNames_eq rangeU rangeV, lockNames_eq rangeV rangeU, ?_, ?_, ?_, ?_, rfl, rfl,
    ?_, ?_⟩
  · simp only [fullNames, low, high]
  · simp only [fullNames, low, high]
  · simp only [fullNames, low, high]
  · intro same
    exact apart (decimal_injective same)
  · intro x y M rangeX rangeY other built key member key' member' same
    rw [lockNames_eq rangeX rangeY] at built
    cases built
    subst same
    have ends := fullNames_disjoint member member'
    have pair : s(x, y) = s(u, v) :=
      Sym2.inf_eq_inf_and_sup_eq_sup.mp ⟨ends.1.symm, ends.2.symm⟩
    exact other (Sym2.eq_iff.mp pair)
  · intro k suffix _ key member
    exact fullNames_ne_node member _

theorem lock_naming_negative : ∃ L L', lockNames (nodeName (-3)) (decimal 12) = some L ∧
    lockNames (nodeName 12) (decimal (-3)) = some L' ∧ L.turnKey = "turn_-3_12".toList ∧
    L.lockKey1 = L'.lockKey2 := by
  obtain ⟨L, L', first, second, _, swapped, _, _, full, _⟩ :=
    lock_naming (-3) 12 (by unfold InInt; omega) (by unfold InInt; omega) (by decide)
  refine ⟨L, L', first, second, ?_, swapped⟩
  rw [full]
  decide

def Key.initial : Key → Char
  | .color _ | .status _ => 'n'
  | .flag _ _ => 'f'
  | .turn _ => 't'

theorem Key.head_text (key : Key) : key.text.head? = some key.initial := by
  cases key <;> rfl

/-- Each key of the clients has its own text. -/
theorem Key.text_injective : Function.Injective Key.text := by
  intro key key' same
  have heads : some key.initial = some key'.initial := by
    rw [← Key.head_text, ← Key.head_text, same]
  -- what is left begins with the same letter
  cases key <;> cases key' <;> simp [Key.initial] at heads
  case color.color u v =>
    have parts := decimal_append_inj (by decide) (List.append_cancel_left same)
    rw [Int.ofNat.inj parts.1]
  case color.status u v =>
    exact absurd (decimal_append_inj (by decide) (List.append_cancel_left same)).2 (by decide)
  case status.color u v =>
    exact absurd (decimal_append_inj (by decide) (List.append_cancel_left same)).2 (by decide)
  case status.status u v =>
    have parts := decimal_append_inj (by decide) (List.append_cancel_left same)
    rw [Int.ofNat.inj parts.1]
  case flag.flag b u b' v =>
    obtain ⟨low, high, node⟩ := flagText_inj (a := b.1) (b := b.2) (c := u) same
    rw [Prod.ext (Int.ofNat.inj low) (Int.ofNat.inj high), Int.ofNat.inj node]
  case turn.turn b b' =>
    obtain ⟨low, high⟩ := turnText_inj (a := b.1) (b := b.2) same
    rw [Prod.ext (Int.ofNat.inj low) (Int.ofNat.inj high)]

theorem append_ne_of_ends {front middle ending ending' : Text} {m : ℕ} (long : m ≤ ending.length)
    (long' : m ≤ ending'.length) (differ : ending.reverse.take m ≠ ending'.reverse.take m) :
    front ++ ending ≠ middle ++ ending' := by
  intro same
  have ends := congrArg (fun text => text.reverse.take m) same
  simp only [List.reverse_append] at ends
  rw [List.take_append_of_le_length (by rwa [List.length_reverse]),
    List.take_append_of_le_length (by rwa [List.length_reverse])] at ends
  exact differ ends

/-- Nothing a client writes looks like a neighbours key. -/
theorem not_matches_text (key : Key) : stringmatch neighboursPattern key.text ≠ true := by
  intro matched
  obtain ⟨middle, same⟩ := (matches_neighboursPattern _).mp matched
  cases key with
  | color v =>
      exact append_ne_of_ends (m := 2) (by decide) (by decide) (by decide)
        (List.append_cancel_left same)
  | status v =>
      exact append_ne_of_ends (m := 2) (by decide) (by decide) (by decide)
        (List.append_cancel_left same)
  | flag b v =>
      have heads : some 'f' = some 'n' := congrArg List.head? same
      exact absurd heads (by decide)
  | turn b =>
      have heads : some 't' = some 'n' := congrArg List.head? same
      exact absurd heads (by decide)

theorem HoldsNatGraph.fetchKeys_eq {edges : List (ℤ × ℤ)} {db : Db}
    (holds : HoldsNatGraph edges db) {reply : List Text}
    (isKeys : IsKeys db neighboursPattern reply) :
    fetchKeys reply = (nodesOf edges).map fun v : ℕ => nodeName v :=
  DistributedColoring.fetchKeys_eq (fun _ => holds.inInt) (nodesOf_sorted edges)
    (isKeys.perm holds.isKeys)

/-- The nodes of a graph with the ids `0 .. n - 1`. -/
theorem nodesOf_eq_range {edges : List (ℤ × ℤ)}
    (range : ∀ e ∈ edges, IntEdge e ∧ 0 ≤ e.1 ∧ 0 ≤ e.2) {n : ℕ}
    (dense : ∀ v : ℕ, Mentioned edges v ↔ v < n) : nodesOf edges = List.range n := by
  have same : (nodesOf edges).Perm (List.range n) := by
    refine (List.perm_ext_iff_of_nodup ((nodesOf_sorted edges).imp fun less => Nat.ne_of_lt less)
      List.nodup_range).mpr fun v => ?_
    rw [mem_nodesOf range, dense, List.mem_range]
  exact same.eq_of_pairwise (fun a b _ _ ab ba => absurd ab (Nat.lt_asymm ba))
    (nodesOf_sorted edges) List.pairwise_lt_range

/-- Back from the list. -/
theorem HoldsNatGraph.dense {edges : List (ℤ × ℤ)} {db : Db} (holds : HoldsNatGraph edges db)
    {n : ℕ} (nodes : nodesOf edges = List.range n) (v : ℤ) :
    Mentioned edges v ↔ 0 ≤ v ∧ v < n := by
  rw [mentioned_iff_nodesOf holds.range, nodes]
  constructor
  · rintro ⟨u, member, rfl⟩
    have less := List.mem_range.mp member
    omega
  · intro bounds
    exact ⟨v.toNat, List.mem_range.mpr (by omega), by omega⟩

/-- Whatever the files, the activity of clients and the order of the reply to KEYS,
`fetch_keys` returns the names of the nodes in increasing order of their ids. -/
theorem fetch_keys_inverts {edges : List (ℤ × ℤ)} {db : Db} (filled : Filled edges db)
    {reply : List Text} (isKeys : IsKeys db neighboursPattern reply) :
    (∃ nodes : List ℕ, fetchKeys reply = nodes.map (fun v : ℕ => nodeName v) ∧
      nodes.Pairwise (· < ·) ∧ ∀ v : ℤ, Mentioned edges v ↔ ∃ u ∈ nodes, (u : ℤ) = v) ∧
    (∀ n : ℕ, (∀ v : ℤ, Mentioned edges v ↔ 0 ≤ v ∧ v < n) →
      (fetchKeys reply).length = n ∧ ∀ i < n, (fetchKeys reply)[i]? = some (nodeName i)) ∧
    ∀ (key : Key) (value : Option Obj), Filled edges (Function.update db key.text value) := by
  have holds := filled.holds
  have keys := holds.fetchKeys_eq isKeys
  refine ⟨⟨nodesOf edges, keys, nodesOf_sorted edges, mentioned_iff_nodesOf holds.range⟩, ?_, ?_⟩
  · intro n dense
    have range := nodesOf_eq_range holds.range (n := n) fun v => by
      rw [dense]
      omega
    rw [keys, range]
    refine ⟨by simp, fun i less => ?_⟩
    simp [less]
  · intro key value
    exact ⟨filled.built.write _ value (not_matches_text key), filled.positive⟩

theorem fetch_keys_two : ∃ db reply, Filled [(1, 0)] db ∧ IsKeys db neighboursPattern reply ∧
    db (Key.text (.status 0)) = some (.string ['1']) ∧
    (fetchKeys reply)[0]? = some (nodeName 0) ∧ (fetchKeys reply)[1]? = some (nodeName 1) := by
  obtain ⟨s', _, _, loaded⟩ := exists_filled_edges .keydb "1,0\n".toList [(1, 0)] (by decide)
    (by decide) (by simp [PlainEdge, IntEdge, InInt])
  have filled : Filled [(1, 0)] _ := ⟨loaded.built.write (Key.text (.status 0))
    (some (.string ['1'])) (not_matches_text _), loaded.positive⟩
  have isKeys := filled.holds.isKeys
  have positions := (fetch_keys_inverts filled isKeys).2.1 2 (filled.holds.dense (by decide))
  exact ⟨_, _, filled, isKeys, Function.update_self _ _ _, positions.2 0 (by decide),
    positions.2 1 (by decide)⟩

end DistributedColoring

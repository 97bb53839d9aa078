import DistributedColoring.CText
import Mathlib.Data.List.Perm.Basic
import Mathlib.Data.List.Pairwise
import Mathlib.Data.List.Induction

set_option autoImplicit false

/- The scripts of the master: `get_partition` divides the node ids, `run_code_sync`
starts the clients. Bash computes in 64 bits and lists the entries of an associative array in
any order. Where it reports an error, the rest of the function is not run: that is `none`. -/
namespace DistributedColoring

open CText

/-- The entries of an associative array. -/
abbrev AssocArray := List (Text × Text)

namespace AssocArray

def assign (array : AssocArray) (key value : Text) : AssocArray :=
  array.filter (fun entry => entry.1 ≠ key) ++ [(key, value)]

/-- An assignment to an element. An empty subscript is an error. -/
def assign? (array : AssocArray) (key value : Text) : Option AssocArray :=
  if key = [] then none else some (array.assign key value)

/-- An entry that is not set expands to the empty text. -/
def lookup (array : AssocArray) (key : Text) : Text :=
  ((array.find? fun entry => entry.1 = key).map Prod.snd).getD []

theorem assign_of_notMem {array : AssocArray} {key : Text} (value : Text)
    (new : key ∉ array.map Prod.fst) : array.assign key value = array ++ [(key, value)] := by
  unfold assign
  congr 1
  rw [List.filter_eq_self]
  intro entry member
  refine decide_eq_true fun same => new ?_
  rw [← same]
  exact List.mem_map_of_mem member

theorem keys_assign (array : AssocArray) (key value : Text) :
    (array.assign key value).map Prod.fst = (array.map Prod.fst).filter (· ≠ key) ++ [key] := by
  rw [assign, List.map_append, List.filter_map]
  rfl

theorem mem_keys_assign {array : AssocArray} {key value other : Text} :
    other ∈ (array.assign key value).map Prod.fst ↔
      other ∈ array.map Prod.fst ∨ other = key := by
  rw [keys_assign, List.mem_append, List.mem_filter, List.mem_singleton, decide_eq_true_iff]
  by_cases same : other = key <;> simp [same]

theorem nodup_keys_assign {array : AssocArray} (nodup : (array.map Prod.fst).Nodup)
    (key value : Text) : ((array.assign key value).map Prod.fst).Nodup := by
  rw [keys_assign, List.nodup_append]
  refine ⟨nodup.filter _, by simp, ?_⟩
  intro a member b last same
  rw [List.mem_singleton.mp last] at same
  exact absurd same (of_decide_eq_true (List.mem_filter.mp member).2)

end AssocArray

/-- The value of an arithmetic operation in bash. -/
def arith (n : ℤ) : ℤ := n.bmod (2 ^ 64)

def rangeText (first last : ℤ) : Text := decimal first ++ ',' :: decimal last

def partitionKey (i : ℕ) : Text := "Partition_".toList ++ decimal i

/-- The variables that the loop of `get_partition` changes. -/
structure PartitionLoop where
  partitions : AssocArray
  currentStart : ℤ
  remaining : ℤ

def partitionStep (partitionSize : ℤ) (s : PartitionLoop) (i : ℕ) : PartitionLoop :=
  let currentEnd := arith (arith (s.currentStart + partitionSize) - 1)
  let currentEnd := if 0 < s.remaining then arith (currentEnd + 1) else currentEnd
  let remaining := if 0 < s.remaining then arith (s.remaining - 1) else s.remaining
  ⟨s.partitions.assign (partitionKey i) (rangeText s.currentStart currentEnd),
    arith (currentEnd + 1), remaining⟩

/-- Without partitions the division is an error, and the array stays empty. -/
def getPartition (startNode endNode : ℤ) (numPartitions : ℕ) : AssocArray :=
  let range := arith (arith (endNode - startNode) + 1)
  let partitionSize := range.tdiv numPartitions
  let remaining := range.tmod numPartitions
  ((List.range' 1 numPartitions).foldl (partitionStep partitionSize)
    ⟨[], startNode, remaining⟩).partitions

/-- `${text%<sep>*}` -/
def upToLast (sep : Char) (text : Text) : Text :=
  if sep ∈ text then ((text.reverse.dropWhile (· ≠ sep)).drop 1).reverse else text

/-- `${text#*<sep>}` -/
def pastFirst (sep : Char) (text : Text) : Text :=
  if sep ∈ text then (text.dropWhile (· ≠ sep)).drop 1 else text

/-- `machine_client_map` or `machine_server_map`. -/
def generateMap (username : Text) (names : List Text) : Option AssocArray :=
  names.foldlM (fun array name =>
    array.assign? name (username ++ '@' :: (name ++ ".uwyo.edu".toList))) []

/-- Servers are given to the clients in turn. Without servers the remainder is an error. -/
def serverClientMap (servers clients : List Text) : Option AssocArray :=
  (clients.foldlM (fun (s : AssocArray × ℕ) client =>
    (s.1.assign? client (servers.getD s.2 [])).bind fun array =>
      if servers.length = 0 then none else some (array, (s.2 + 1) % servers.length))
    ([], 0)).map Prod.fst

/-- One start of `color.sh` over ssh. -/
structure Launch where
  client : Text
  host : Text
  start : Text
  finish : Text
  ip : Text

/-- The maps, and the loop over the keys of `machine_client_map`, listed in `order`. -/
def runCodeSync (username : Text) (servers clients partitions order : List Text) :
    Option (List Launch) :=
  (generateMap username servers).bind fun machineServerMap =>
    (generateMap username clients).bind fun machineClientMap =>
      (serverClientMap servers clients).map fun chosen =>
        order.mapIdx fun index client =>
          let partition := partitions.getD index []
          { client := client
            host := machineClientMap.lookup client
            start := upToLast ',' partition
            finish := pastFirst ',' partition
            ip := pastFirst '@' (machineServerMap.lookup (chosen.lookup client)) }

/-- The client gets `node` within its arguments. -/
def Launch.Gives (launch : Launch) (node : ℤ) : Prop :=
  ∃ first last, launch.start = decimal first ∧ launch.finish = decimal last ∧
    first ≤ node ∧ node ≤ last

theorem pastFirst_append {sep : Char} {front : Text} (outside : sep ∉ front) (rest : Text) :
    pastFirst sep (front ++ sep :: rest) = rest := by
  have passed : ∀ c ∈ front, decide (c ≠ sep) = true := by
    intro c member
    exact decide_eq_true fun same => outside (same ▸ member)
  rw [pastFirst, if_pos (by simp), List.dropWhile_append_of_pos passed]
  simp

theorem upToLast_append {sep : Char} {rest : Text} (outside : sep ∉ rest) (front : Text) :
    upToLast sep (front ++ sep :: rest) = front := by
  have passed : ∀ c ∈ rest.reverse, decide (c ≠ sep) = true := by
    intro c member
    exact decide_eq_true fun same => outside (same ▸ List.mem_reverse.mp member)
  rw [upToLast, if_pos (by simp), List.reverse_append, List.reverse_cons, List.append_assoc,
    List.dropWhile_append_of_pos passed]
  simp

theorem partitionKey_injective {i j : ℕ} (same : partitionKey i = partitionKey j) : i = j :=
  Int.ofNat.inj (decimal_injective (List.append_cancel_left same))

theorem comma_notMem_decimal (value : ℤ) : ',' ∉ decimal value :=
  fun member => absurd (mem_decimal member) (by decide)

/-- Where the range of index `i` starts. -/
def boundary (startNode partitionSize remaining : ℤ) (i : ℕ) : ℤ :=
  startNode + i * partitionSize + min (i : ℤ) remaining

theorem boundary_succ (startNode partitionSize remaining : ℤ) (i : ℕ) :
    boundary startNode partitionSize remaining (i + 1) =
      boundary startNode partitionSize remaining i + partitionSize +
        if i < remaining then 1 else 0 := by
  have cast : ((i + 1 : ℕ) : ℤ) = i + 1 := by omega
  unfold boundary
  rw [cast, Int.add_mul, Int.one_mul]
  split <;> omega

/-- The entry that the loop makes for index `i`. -/
def partitionEntry (startNode partitionSize remaining : ℤ) (i : ℕ) : Text × Text :=
  (partitionKey (i + 1), rangeText (arith (boundary startNode partitionSize remaining i))
    (arith (boundary startNode partitionSize remaining (i + 1) - 1)))

@[simp] theorem arith_add_arith (n m : ℤ) : arith (arith n + m) = arith (n + m) :=
  Int.bmod_add_bmod

@[simp] theorem arith_sub_arith (n m : ℤ) : arith (arith n - m) = arith (n - m) :=
  Int.bmod_sub_bmod

theorem arith_eq {n : ℤ} (low : -2 ^ 63 ≤ n) (high : n < 2 ^ 63) : arith n = n := by
  apply Int.bmod_eq_of_le <;> omega

/-- The loop after `count` turns. Its numbers are exact but for 64 bits. -/
theorem partitionLoop_eq {startNode : ℤ} (inLong : arith startNode = startNode)
    (partitionSize : ℤ) {remaining : ℤ} (nonneg : 0 ≤ remaining) (small : remaining < 2 ^ 63)
    (count : ℕ) :
    (List.range' 1 count).foldl (partitionStep partitionSize) ⟨[], startNode, remaining⟩ =
      ⟨(List.range count).map (partitionEntry startNode partitionSize remaining),
        arith (boundary startNode partitionSize remaining count),
        remaining - min (count : ℤ) remaining⟩ := by
  induction count with
  | zero =>
      have none : min (0 : ℤ) remaining = 0 := by omega
      simp [boundary, none, inLong]
  | succ count ih =>
      let entries := (List.range count).map (partitionEntry startNode partitionSize remaining)
      have new : partitionKey (1 + 1 * count) ∉ entries.map Prod.fst := by
        intro member
        simp only [entries, List.map_map, List.mem_map, List.mem_range, Function.comp_apply,
          partitionEntry] at member
        obtain ⟨i, less, same⟩ := member
        have := partitionKey_injective same
        omega
      have next := boundary_succ startNode partitionSize remaining count
      -- A rest is left as long as fewer ranges than the remainder have been made.
      have left : (0 < remaining - min (count : ℤ) remaining) ↔ (count : ℤ) < remaining := by omega
      have ends : (if (count : ℤ) < remaining then
            arith (boundary startNode partitionSize remaining count + partitionSize - 1 + 1)
          else arith (boundary startNode partitionSize remaining count + partitionSize - 1)) =
          arith (boundary startNode partitionSize remaining (count + 1) - 1) := by
        rw [next]
        split <;> congr 1 <;> omega
      have rest : (if (count : ℤ) < remaining then
            arith (remaining - min (count : ℤ) remaining - 1)
          else remaining - min (count : ℤ) remaining) =
          remaining - min ((count + 1 : ℕ) : ℤ) remaining := by
        split
        · rw [arith_eq (by omega) (by omega)]
          omega
        · omega
      rw [List.range'_concat, List.foldl_append, ih, List.range_succ, List.map_append]
      simp only [List.foldl_cons, List.foldl_nil, partitionStep, arith_add_arith, arith_sub_arith,
        left, ends, rest]
      rw [AssocArray.assign_of_notMem _ new, Nat.one_mul, Nat.add_comm 1 count,
        Int.sub_add_cancel]
      rfl

/-- Some step of a sequence passes a number between its ends. -/
theorem exists_step (b : ℕ → ℤ) {n : ℕ} {x : ℤ} (low : b 0 ≤ x) (high : x < b n) :
    ∃ i < n, b i ≤ x ∧ x < b (i + 1) := by
  induction n with
  | zero => omega
  | succ n ih =>
      by_cases below : x < b n
      · obtain ⟨i, less, inside⟩ := ih below
        exact ⟨i, by omega, inside⟩
      · exact ⟨n, by omega, by omega, high⟩

theorem le_of_steps {b : ℕ → ℤ} (step : ∀ i, b i ≤ b (i + 1)) {i j : ℕ} (order : i ≤ j) :
    b i ≤ b j := by
  induction order with
  | refl => exact Int.le_refl _
  | step _ ih => exact Int.le_trans ih (step _)

/-- The ranges as numbers. -/
def ranges (startNode endNode : ℤ) (numPartitions : ℕ) : List (ℤ × ℤ) :=
  (List.range numPartitions).map fun i =>
    (boundary startNode ((endNode - startNode + 1) / numPartitions)
      ((endNode - startNode + 1) % numPartitions) i,
    boundary startNode ((endNode - startNode + 1) / numPartitions)
      ((endNode - startNode + 1) % numPartitions) (i + 1) - 1)

/-- The last range ends at `end_node`. -/
theorem boundary_last (startNode endNode : ℤ) {numPartitions : ℕ} (positive : 1 ≤ numPartitions) :
    boundary startNode ((endNode - startNode + 1) / numPartitions)
      ((endNode - startNode + 1) % numPartitions) numPartitions = endNode + 1 := by
  have less := Int.emod_lt_of_pos (endNode - startNode + 1) (b := numPartitions) (by omega)
  have split := Int.mul_ediv_add_emod (endNode - startNode + 1) numPartitions
  unfold boundary
  rw [Int.min_eq_right (Int.le_of_lt less)]
  omega

/-- The first range starts at `start_node`. -/
theorem boundary_first (startNode endNode : ℤ) {numPartitions : ℕ} (positive : 1 ≤ numPartitions) :
    boundary startNode ((endNode - startNode + 1) / numPartitions)
      ((endNode - startNode + 1) % numPartitions) 0 = startNode := by
  have rest : 0 ≤ (endNode - startNode + 1) % (numPartitions : ℤ) :=
    Int.emod_nonneg _ (by omega)
  unfold boundary
  omega

/-- The ids, how many they are and the number of ranges fit into 64 bits, and so does the first
number that no range has, if some range is empty. -/
structure FitsLong (startNode endNode : ℤ) (numPartitions : ℕ) : Prop where
  low : -2 ^ 63 ≤ startNode
  high : endNode < 2 ^ 63
  size : endNode - startNode + 1 < 2 ^ 63
  parts : numPartitions < 2 ^ 63
  rest : endNode + 1 < 2 ^ 63 ∨ numPartitions ≤ endNode - startNode + 1

section Division

variable {startNode endNode : ℤ} {numPartitions : ℕ} (order : startNode ≤ endNode)
  (positive : 1 ≤ numPartitions)

include order positive

theorem partitionSize_nonneg : 0 ≤ (endNode - startNode + 1) / (numPartitions : ℤ) :=
  Int.ediv_nonneg (by omega) (by omega)

theorem boundary_step (i : ℕ) :
    boundary startNode ((endNode - startNode + 1) / numPartitions)
        ((endNode - startNode + 1) % numPartitions) i ≤
      boundary startNode ((endNode - startNode + 1) / numPartitions)
        ((endNode - startNode + 1) % numPartitions) (i + 1) := by
  have size := partitionSize_nonneg order positive
  rw [boundary_succ]
  split <;> omega

theorem ranges_ordered :
    (ranges startNode endNode numPartitions).Pairwise fun p q => p.2 < q.1 := by
  unfold ranges
  rw [List.pairwise_map]
  refine List.pairwise_lt_range.imp fun less => ?_
  have := le_of_steps (boundary_step order positive) (Nat.succ_le_of_lt less)
  simp only [Nat.succ_eq_add_one] at this ⊢
  omega

/-- Both bounds of a range stay within one of the ids, for empty ranges too. -/
theorem ranges_bounds {r : ℤ × ℤ} (member : r ∈ ranges startNode endNode numPartitions) :
    startNode ≤ r.1 ∧ r.1 ≤ r.2 + 1 ∧ r.2 ≤ endNode := by
  simp only [ranges, List.mem_map, List.mem_range] at member
  obtain ⟨i, less, same⟩ := member
  have first := boundary_first startNode endNode positive
  have last := boundary_last startNode endNode positive
  have above := le_of_steps (boundary_step order positive) (Nat.zero_le i)
  have step := boundary_step order positive i
  have below := le_of_steps (boundary_step order positive) (Nat.succ_le_of_lt less)
  rw [← same]
  simp only [Nat.succ_eq_add_one] at below ⊢
  omega

theorem mem_ranges_iff (node : ℤ) :
    (∃ r ∈ ranges startNode endNode numPartitions, r.1 ≤ node ∧ node ≤ r.2) ↔
      startNode ≤ node ∧ node ≤ endNode := by
  constructor
  · intro ⟨r, member, low, high⟩
    have bounds := ranges_bounds order positive member
    omega
  · intro ⟨low, high⟩
    have first := boundary_first startNode endNode positive
    have last := boundary_last startNode endNode positive
    simp only [ranges, List.mem_map, List.mem_range]
    obtain ⟨i, less, above, below⟩ := exists_step
      (boundary startNode ((endNode - startNode + 1) / numPartitions)
        ((endNode - startNode + 1) % numPartitions)) (n := numPartitions) (x := node)
      (by omega) (by omega)
    exact ⟨_, ⟨i, less, rfl⟩, above, Int.le_sub_one_of_lt below⟩

theorem boundary_fits (fits : FitsLong startNode endNode numPartitions) {i : ℕ}
    (less : i < numPartitions) :
    arith (boundary startNode ((endNode - startNode + 1) / numPartitions)
        ((endNode - startNode + 1) % numPartitions) i) =
      boundary startNode ((endNode - startNode + 1) / numPartitions)
        ((endNode - startNode + 1) % numPartitions) i ∧
    arith (boundary startNode ((endNode - startNode + 1) / numPartitions)
        ((endNode - startNode + 1) % numPartitions) (i + 1) - 1) =
      boundary startNode ((endNode - startNode + 1) / numPartitions)
        ((endNode - startNode + 1) % numPartitions) (i + 1) - 1 := by
  obtain ⟨low, high, _, _, rest⟩ := fits
  have first := boundary_first startNode endNode positive
  have last := boundary_last startNode endNode positive
  have above := le_of_steps (boundary_step order positive) (Nat.zero_le i)
  have second := le_of_steps (boundary_step order positive) (Nat.succ_le_succ (Nat.zero_le i))
  have below := le_of_steps (boundary_step order positive) (Nat.succ_le_of_lt less)
  have split := Int.mul_ediv_add_emod (endNode - startNode + 1) numPartitions
  have nonneg := partitionSize_nonneg order positive
  have remainder := Int.emod_nonneg (endNode - startNode + 1) (b := numPartitions) (by omega)
  -- The first range is not empty, and with enough ids none is.
  have one := boundary_succ startNode ((endNode - startNode + 1) / numPartitions)
    ((endNode - startNode + 1) % numPartitions) 0
  have next := boundary_succ startNode ((endNode - startNode + 1) / numPartitions)
    ((endNode - startNode + 1) % numPartitions) i
  simp only [Nat.succ_eq_add_one] at second below
  have started : startNode + 1 ≤ boundary startNode ((endNode - startNode + 1) / numPartitions)
      ((endNode - startNode + 1) % numPartitions) (0 + 1) := by
    rw [one, first]
    rcases Int.lt_or_eq_of_le nonneg with some | none
    · split <;> omega
    · rw [← none, Int.mul_zero] at split
      rw [if_pos (by omega)]
      omega
  constructor
  · apply arith_eq
    · omega
    · rcases rest with room | enough
      · omega
      · have some : 1 ≤ (endNode - startNode + 1) / (numPartitions : ℤ) :=
          Int.le_ediv_of_mul_le (by omega) (by omega)
        split at next <;> omega
  · apply arith_eq <;> omega

theorem getPartition_eq (fits : FitsLong startNode endNode numPartitions) :
    (getPartition startNode endNode numPartitions).map Prod.snd =
      (ranges startNode endNode numPartitions).map fun r => rangeText r.1 r.2 := by
  have ⟨low, high, sized, _, _⟩ := fits
  have size : 0 ≤ endNode - startNode + 1 := by omega
  have exactly : arith (arith (endNode - startNode) + 1) = endNode - startNode + 1 := by
    rw [arith_add_arith, arith_eq (by omega) sized]
  have rest : 0 ≤ (endNode - startNode + 1) % (numPartitions : ℤ) :=
    Int.emod_nonneg _ (by omega)
  have small : (endNode - startNode + 1) % (numPartitions : ℤ) < 2 ^ 63 := by
    have split := Int.mul_ediv_add_emod (endNode - startNode + 1) numPartitions
    have quotient := Int.mul_nonneg (Int.natCast_nonneg numPartitions)
      (partitionSize_nonneg order positive)
    omega
  have inLong : arith startNode = startNode := arith_eq low (by omega)
  simp only [getPartition, ranges, exactly, Int.tdiv_eq_ediv_of_nonneg size,
    Int.tmod_eq_emod_of_nonneg size, partitionLoop_eq inLong _ rest small, List.map_map]
  refine List.map_congr_left fun i member => ?_
  obtain ⟨front, back⟩ := boundary_fits order positive fits (List.mem_range.mp member)
  simp only [Function.comp_apply, partitionEntry, front, back]

omit order positive in
theorem ranges_balanced {r : ℤ × ℤ} (member : r ∈ ranges startNode endNode numPartitions) :
    (endNode - startNode + 1) / numPartitions ≤ r.2 - r.1 + 1 ∧
      r.2 - r.1 + 1 ≤ (endNode - startNode + 1) / numPartitions + 1 := by
  simp only [ranges, List.mem_map] at member
  obtain ⟨i, _, rfl⟩ := member
  simp only [boundary_succ]
  split <;> omega

end Division

theorem assign?_eq {array : AssocArray} {key value : Text} (named : key ≠ []) :
    array.assign? key value = some (array.assign key value) :=
  if_neg named

theorem mem_assign? {array array' : AssocArray} {key value : Text}
    (assigned : array' ∈ array.assign? key value) : array' = array.assign key value := by
  unfold AssocArray.assign? at assigned
  split at assigned
  · cases assigned
  · exact (Option.some.inj assigned).symm

theorem generateMap_keys {username : Text} {names : List Text} (distinct : names.Nodup)
    {map : AssocArray} (made : map ∈ generateMap username names) : map.map Prod.fst = names := by
  unfold generateMap at made
  induction names using List.reverseRecOn generalizing map with
  | nil =>
      cases made
      rfl
  | append_singleton names name ih =>
      have apart := (List.nodup_append.mp distinct).2.2
      rw [List.foldlM_append] at made
      obtain ⟨array, earlier, last⟩ := Option.bind_eq_some_iff.mp made
      obtain ⟨array', assigned, same⟩ := Option.bind_eq_some_iff.mp last
      cases same
      have keys := ih (List.nodup_append.mp distinct).1 earlier
      rw [mem_assign? assigned, AssocArray.assign_of_notMem, List.map_append, keys]
      · rfl
      · rw [keys]
        intro member
        exact apart name member name (List.mem_singleton_self name) rfl

theorem exists_generateMap (username : Text) {names : List Text} (named : [] ∉ names) :
    ∃ map, map ∈ generateMap username names := by
  suffices ∀ array : AssocArray, ∃ map, names.foldlM (fun array name => array.assign? name
      (username ++ '@' :: (name ++ ".uwyo.edu".toList))) array = some map from this []
  induction names with
  | nil => exact fun array => ⟨array, rfl⟩
  | cons name names ih =>
      intro array
      obtain ⟨here, later⟩ := not_or.mp (List.mem_cons.not.mp named)
      rw [List.foldlM_cons, assign?_eq (Ne.symm here)]
      exact ih later _

theorem exists_serverClientMap {servers clients : List Text} (served : servers ≠ [])
    (named : [] ∉ clients) : ∃ map, map ∈ serverClientMap servers clients := by
  have count : servers.length ≠ 0 := fun zero => served (List.length_eq_zero_iff.mp zero)
  suffices ∀ s : AssocArray × ℕ, ∃ s', clients.foldlM (fun (s : AssocArray × ℕ) client =>
      (s.1.assign? client (servers.getD s.2 [])).bind fun array =>
        if servers.length = 0 then none else some (array, (s.2 + 1) % servers.length)) s =
          some s' by
    obtain ⟨s', done⟩ := this ([], 0)
    exact ⟨s'.1, by rw [serverClientMap, done]; rfl⟩
  induction clients with
  | nil => exact fun s => ⟨s, rfl⟩
  | cons client clients ih =>
      intro s
      obtain ⟨here, later⟩ := not_or.mp (List.mem_cons.not.mp named)
      rw [List.foldlM_cons, assign?_eq (Ne.symm here), Option.bind_some, if_neg count]
      exact ih later _

/-- With servers and proper names the script gets to its loop. -/
theorem exists_runCodeSync (username : Text) {servers clients : List Text} (served : servers ≠ [])
    (namedServers : [] ∉ servers) (namedClients : [] ∉ clients) (partitions order : List Text) :
    ∃ launches, launches ∈ runCodeSync username servers clients partitions order := by
  obtain ⟨serverMap, madeServers⟩ := exists_generateMap username namedServers
  obtain ⟨clientMap, madeClients⟩ := exists_generateMap username namedClients
  obtain ⟨chosen, madeChosen⟩ := exists_serverClientMap served namedClients
  rw [Option.mem_def] at madeServers madeClients madeChosen
  exact ⟨_, by rw [runCodeSync, madeServers, madeClients, madeChosen]; rfl⟩

/-- The maps of a script that starts its clients. -/
theorem generateMap_of_started {username : Text} {servers clients partitions order : List Text}
    {launches : List Launch}
    (started : launches ∈ runCodeSync username servers clients partitions order) :
    (∃ map, map ∈ generateMap username clients) ∧ launches.length = order.length := by
  obtain ⟨_, _, more⟩ := Option.bind_eq_some_iff.mp started
  obtain ⟨map, made, more⟩ := Option.bind_eq_some_iff.mp more
  obtain ⟨_, _, rfl⟩ := Option.map_eq_some_iff.mp more
  exact ⟨⟨map, made⟩, List.length_mapIdx⟩

/-- The script lists each client once. -/
theorem names_length {username : Text} {servers clients partitions names : List Text}
    (distinct : clients.Nodup)
    (named : ∀ map ∈ generateMap username clients, names.Perm (map.map Prod.fst))
    {launches : List Launch}
    (started : launches ∈ runCodeSync username servers clients partitions names) :
    names.length = clients.length := by
  obtain ⟨map, made⟩ := (generateMap_of_started started).1
  rw [(named map made).length_eq, generateMap_keys distinct made]

/-- Each client gets the range at its position in the list. -/
theorem runCodeSync_eq {username : Text} {servers clients : List Text}
    {rs : List (ℤ × ℤ)} {partitions order : List Text} {launches : List Launch}
    (started : launches ∈ runCodeSync username servers clients partitions order)
    (listed : partitions.Perm (rs.map fun r => rangeText r.1 r.2))
    (count : order.length = rs.length) :
    launches.map Launch.client = order ∧
    (launches.map fun l => (l.start, l.finish)).Perm
      (rs.map fun r => (decimal r.1, decimal r.2)) := by
  let cut (text : Text) : Text × Text := (upToLast ',' text, pastFirst ',' text)
  obtain ⟨serverMap, _, more⟩ := Option.bind_eq_some_iff.mp started
  obtain ⟨clientMap, _, more⟩ := Option.bind_eq_some_iff.mp more
  obtain ⟨chosen, _, rfl⟩ := Option.map_eq_some_iff.mp more
  have lengths : order.length = partitions.length := by
    rw [count, listed.length_eq, List.length_map]
  constructor
  · apply List.ext_getElem
    · simp
    · intro i _ _
      simp
  · have back : (rs.map fun r => rangeText r.1 r.2).map cut =
        rs.map fun r => (decimal r.1, decimal r.2) := by
      rw [List.map_map]
      apply List.map_congr_left
      intro r _
      exact Prod.ext (upToLast_append (comma_notMem_decimal r.2) (decimal r.1))
        (pastFirst_append (comma_notMem_decimal r.1) (decimal r.2))
    rw [← back]
    refine List.Perm.trans (List.Perm.of_eq ?_) (listed.map cut)
    apply List.ext_getElem
    · simp [lengths]
    · intro i _ inside
      rw [List.length_map] at inside
      simp [cut, inside]

/-- Two clients with parts of the ids do not share one. -/
theorem gives_apart {rs : List (ℤ × ℤ)} {launches : List Launch} {node : ℤ}
    (apart : rs.Pairwise fun p q =>
      ∀ node, ¬ (p.1 ≤ node ∧ node ≤ p.2 ∧ q.1 ≤ node ∧ node ≤ q.2))
    (given : (launches.map fun l => (l.start, l.finish)).Perm
      (rs.map fun r => (decimal r.1, decimal r.2))) :
    launches.Pairwise fun a b => ¬ (a.Gives node ∧ b.Gives node) := by
  let gives (x : Text × Text) : Prop :=
    ∃ first last, x.1 = decimal first ∧ x.2 = decimal last ∧ first ≤ node ∧ node ≤ last
  have inside : ∀ r : ℤ × ℤ, gives (decimal r.1, decimal r.2) → r.1 ≤ node ∧ node ≤ r.2 := by
    intro r ⟨first, last, sameFirst, sameLast, low, high⟩
    rw [decimal_injective sameFirst, decimal_injective sameLast]
    exact ⟨low, high⟩
  have texts : (rs.map fun r => (decimal r.1, decimal r.2)).Pairwise
      fun x y => ¬ (gives x ∧ gives y) := by
    rw [List.pairwise_map]
    refine apart.imp fun {p q} disjoint both => ?_
    obtain ⟨lowP, highP⟩ := inside p both.1
    obtain ⟨lowQ, highQ⟩ := inside q both.2
    exact disjoint node ⟨lowP, highP, lowQ, highQ⟩
  have moved := (given.pairwise_iff fun none both => none both.symm).mpr texts
  rwa [List.pairwise_map] at moved

/-- Whatever the orders in which bash lists its arrays, the ranges of `get_partition`
are disjoint, cover the ids, and differ in size by one at most. Each one goes to one
client, so that each id is given to exactly one client. -/
theorem partition_dispatch (startNode endNode : ℤ) (order : startNode ≤ endNode)
    (numPartitions : ℕ) (positive : 1 ≤ numPartitions)
    (fits : FitsLong startNode endNode numPartitions) (clients : List Text)
    (count : clients.length = numPartitions) (distinct : clients.Nodup)
    (namedClients : [] ∉ clients) (username : Text) (servers : List Text) (served : servers ≠ [])
    (namedServers : [] ∉ servers) (partitions names : List Text)
    (listed : partitions.Perm ((getPartition startNode endNode numPartitions).map Prod.snd))
    (named : ∀ map ∈ generateMap username clients, names.Perm (map.map Prod.fst)) :
    ∃ rs : List (ℤ × ℤ), ∃ launches,
      runCodeSync username servers clients partitions names = some launches ∧
      (getPartition startNode endNode numPartitions).map Prod.snd =
        (rs.map fun r => rangeText r.1 r.2) ∧
      (rs.Pairwise fun p q => ∀ node, ¬ (p.1 ≤ node ∧ node ≤ p.2 ∧ q.1 ≤ node ∧ node ≤ q.2)) ∧
      (∀ node, (∃ r ∈ rs, r.1 ≤ node ∧ node ≤ r.2) ↔ startNode ≤ node ∧ node ≤ endNode) ∧
      (∀ p ∈ rs, p.1 - 1 ≤ p.2 ∧ ∀ q ∈ rs, p.2 - p.1 ≤ q.2 - q.1 + 1) ∧
      (launches.map Launch.client).Perm clients ∧
      (launches.map fun l => (l.start, l.finish)).Perm
        (rs.map fun r => (decimal r.1, decimal r.2)) ∧
      ∀ node, startNode ≤ node → node ≤ endNode → ∃! client,
        ∃ l ∈ launches, l.client = client ∧ l.Gives node := by
  obtain ⟨map, made⟩ := exists_generateMap username namedClients
  have perm := named map made
  rw [generateMap_keys distinct made] at perm
  rw [getPartition_eq order positive fits] at listed
  have size : names.length = (ranges startNode endNode numPartitions).length := by
    rw [perm.length_eq, count, ranges, List.length_map, List.length_range]
  have apart : (ranges startNode endNode numPartitions).Pairwise fun p q =>
      ∀ node, ¬ (p.1 ≤ node ∧ node ≤ p.2 ∧ q.1 ≤ node ∧ node ≤ q.2) := by
    refine (ranges_ordered order positive).imp fun less node => ?_
    omega
  obtain ⟨launches, run⟩ :=
    exists_runCodeSync username served namedServers namedClients partitions names
  obtain ⟨started, given⟩ := runCodeSync_eq run listed size
  refine ⟨ranges startNode endNode numPartitions, launches, run,
    getPartition_eq order positive fits, apart, mem_ranges_iff order positive, ?_,
    (List.Perm.of_eq started).trans perm, given, ?_⟩
  · intro p memberP
    have nonneg := partitionSize_nonneg order positive
    have sizeP := ranges_balanced memberP
    refine ⟨by omega, fun q memberQ => ?_⟩
    have sizeQ := ranges_balanced memberQ
    omega
  · intro node low high
    obtain ⟨r, member, inside⟩ := (mem_ranges_iff order positive node).mpr ⟨low, high⟩
    obtain ⟨l, launched, same⟩ :=
      List.mem_map.mp (given.mem_iff.mpr (List.mem_map_of_mem member))
    have gives : l.Gives node :=
      ⟨r.1, r.2, congrArg Prod.fst same, congrArg Prod.snd same, inside⟩
    refine ⟨l.client, ⟨l, launched, rfl, gives⟩, ?_⟩
    rintro client ⟨l', launched', rfl, gives'⟩
    by_contra other
    have different : l' ≠ l := fun equal => other (congrArg Launch.client equal)
    have symmetric : Std.Symm fun a b : Launch => ¬ (a.Gives node ∧ b.Gives node) :=
      ⟨fun _ _ none both => none both.symm⟩
    exact (gives_apart apart given).forall launched' launched different ⟨gives', gives⟩

/-- Five ids for three clients, with both arrays listed out of order. -/
theorem partition_dispatch_five : ∃ (rs : List (ℤ × ℤ)) (launches : List Launch),
    runCodeSync "u".toList ["s".toList] ["a".toList, "b".toList, "c".toList]
      ["4,4".toList, "0,1".toList, "2,3".toList] ["c".toList, "a".toList, "b".toList] =
        some launches ∧
    (getPartition 0 4 3).map Prod.snd = (rs.map fun r => rangeText r.1 r.2) ∧
    ∀ node, 0 ≤ node → node ≤ 4 → ∃! client,
      ∃ l ∈ launches, l.client = client ∧ l.Gives node := by
  obtain ⟨rs, launches, run, texts, _, _, _, _, _, unique⟩ := partition_dispatch 0 4 (by decide) 3
    (by decide) ⟨by decide, by decide, by decide, by decide, by decide⟩
    ["a".toList, "b".toList, "c".toList] rfl (by decide) (by decide) "u".toList ["s".toList]
    (by decide) (by decide) ["4,4".toList, "0,1".toList, "2,3".toList]
    ["c".toList, "a".toList, "b".toList] (by decide) (by decide)
  exact ⟨rs, launches, run, texts, unique⟩

/-- The number of the ids `0 .. 2 ^ 63 - 1` is no 64 bit integer: of two clients one gets
`-1` as well, the other nothing. Without a server, or with an empty name among the clients, no
client is started. -/
theorem dispatch_lost :
    (getPartition 0 (2 ^ 63 - 1) 2).map Prod.snd =
        [rangeText 0 (-2 ^ 62 - 1), rangeText (-2 ^ 62) (2 ^ 63 - 1)] ∧
      runCodeSync "u".toList [] ["a".toList] ["0,4".toList] ["a".toList] = none ∧
      runCodeSync "u".toList ["s".toList] [[]] ["0,4".toList] [[]] = none := by
  decide

end DistributedColoring

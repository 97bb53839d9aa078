import DistributedColoring.FetchKeys
import DistributedColoring.Bookkeeping
import Mathlib.Data.Fin.VecNotation
import Mathlib.Tactic.FinCases

set_option autoImplicit false

/- Which client gets which node. `main` takes positions in the sorted list of keys,
`read_color_of_neighbors` compares ids with the same bounds. -/
namespace DistributedColoring

open CText

/-- The neighbours keys hold exactly the graph of `edges`. -/
structure HoldsGraph (edges : List (ℤ × ℤ)) (db : Db) : Prop where
  keys : ∀ key, stringmatch neighboursPattern key = true →
    (db key ≠ none ↔ ∃ v, Mentioned edges v ∧ key = nodeKey v)
  sets : HoldsSets db
  members : ∀ v text, InInt v →
    (text ∈ members db (nodeKey v) ↔ ∃ u, Joined edges u v ∧ text = decimal u)

theorem Loads.holdsGraph {edges more : List (ℤ × ℤ)} {db db' : Db}
    (range : ∀ e ∈ more, IntEdge e) (holds : HoldsGraph edges db) (loads : Loads more db db') :
    HoldsGraph (edges ++ more) db' := by
  refine ⟨?_, loads.holdsSets range holds.sets, ?_⟩
  · intro key matched
    by_cases new : ∃ v, Mentioned more v ∧ key = nodeKey v
    · obtain ⟨v, mentioned, same⟩ := new
      obtain ⟨stored, found, _⟩ := loads.neighbours v mentioned
      rw [same, found]
      exact iff_of_true (by simp) ⟨v, mentioned_append.mpr (Or.inr mentioned), rfl⟩
    · have kept : db' key = db key := by
        apply loads.others
        intro v mentioned
        refine ⟨fun same => new ⟨v, mentioned, same⟩, fun same => ?_⟩
        rw [same] at matched
        exact not_matches_colorKey (mentioned.inInt range) matched
      rw [kept, holds.keys key matched]
      refine exists_congr fun v => and_congr_left fun same => ?_
      rw [mentioned_append]
      exact (or_iff_left fun mentioned => new ⟨v, mentioned, same⟩).symm
  · intro v text inInt
    rw [loads.mem_members range inInt, holds.members v text inInt]
    simp only [joined_append, or_and_right, exists_or]

theorem holdsGraph_of_unused {db : Db}
    (unused : ∀ key, stringmatch neighboursPattern key = true → db key = none) :
    HoldsGraph [] db := by
  have none : ∀ u v : ℤ, ¬ Joined [] u v := by simp [Joined]
  refine ⟨?_, ?_, ?_⟩
  · intro key matched
    rw [unused key matched]
    refine iff_of_false (by simp) ?_
    rintro ⟨v, ⟨u, joined⟩, _⟩
    exact none u v joined
  · intro v obj inInt found
    rw [unused _ (matches_nodeKey inInt)] at found
    cases found
  · intro v text inInt
    rw [members, unused _ (matches_nodeKey inInt)]
    refine iff_of_false (by simp) ?_
    rintro ⟨u, joined, _⟩
    exact none u v joined

theorem HoldsGraph.write {edges : List (ℤ × ℤ)} {db : Db} (holds : HoldsGraph edges db)
    {key : Text} (value : Option Obj) (other : stringmatch neighboursPattern key ≠ true) :
    HoldsGraph edges (Function.update db key value) := by
  have kept : ∀ {v : ℤ}, InInt v → nodeKey v ≠ key := by
    rintro v inInt rfl
    exact other (matches_nodeKey inInt)
  refine ⟨?_, ?_, ?_⟩
  · intro key' matched
    have apart : key' ≠ key := by
      rintro rfl
      exact other matched
    rw [Function.update_of_ne apart]
    exact holds.keys key' matched
  · intro v obj inInt found
    rw [Function.update_of_ne (kept inInt)] at found
    exact holds.sets v obj inInt found
  · intro v text inInt
    rw [DistributedColoring.members, Function.update_of_ne (kept inInt)]
    exact holds.members v text inInt

/-- The edges in a server's keys after calls of `add_graph`, whatever the lines of the files.
The clients write other keys in between. -/
inductive Built : List (ℤ × ℤ) → Db → Prop
  | start {db : Db} (unused : ∀ key, stringmatch neighboursPattern key = true → db key = none) :
      Built [] db
  | load {edges : List (ℤ × ℤ)} {s s' : Loading} (built : Built edges s.db) (copy : Copy)
      (files : Text → Option Text) (argv : List StringObj)
      (done : s.addGraphCommand copy files argv = some s') :
      Built (edges ++ edgesRead files argv) s'.db
  | write {edges : List (ℤ × ℤ)} {db : Db} (built : Built edges db) (key : Text)
      (value : Option Obj) (other : stringmatch neighboursPattern key ≠ true) :
      Built edges (Function.update db key value)

theorem Built.holds {edges : List (ℤ × ℤ)} {db : Db} (built : Built edges db) :
    HoldsGraph edges db ∧ ∀ e ∈ edges, IntEdge e := by
  induction built with
  | start unused => exact ⟨holdsGraph_of_unused unused, by simp⟩
  | load _ copy files argv done ih =>
      have loads := Loading.loads_of_command copy files (ih.1.sets.typed intEdge_of_read) done
      exact ⟨loads.holdsGraph intEdge_of_read ih.1,
        List.forall_mem_append.mpr ⟨ih.2, intEdge_of_read⟩⟩
  | write _ key value other ih => exact ⟨ih.1.write value other, ih.2⟩

/-- A graph whose ids are not negative. -/
structure HoldsNatGraph (edges : List (ℤ × ℤ)) (db : Db) : Prop extends HoldsGraph edges db where
  range : ∀ e ∈ edges, IntEdge e ∧ 0 ≤ e.1 ∧ 0 ≤ e.2

/-- The calls of `Built` with ids that are not negative. -/
structure Filled (edges : List (ℤ × ℤ)) (db : Db) : Prop where
  built : Built edges db
  positive : ∀ e ∈ edges, 0 ≤ e.1 ∧ 0 ≤ e.2

theorem Filled.holds {edges : List (ℤ × ℤ)} {db : Db} (filled : Filled edges db) :
    HoldsNatGraph edges db :=
  ⟨filled.built.holds.1, fun e member => ⟨filled.built.holds.2 e member, filled.positive e member⟩⟩

/-- The nodes of a list of edges in increasing order. -/
def nodesOf (edges : List (ℤ × ℤ)) : List ℕ :=
  (edges.flatMap fun e => [e.1.toNat, e.2.toNat]).dedup.insertionSort (· ≤ ·)

theorem nodesOf_sorted (edges : List (ℤ × ℤ)) : (nodesOf edges).Pairwise (· < ·) := by
  have nodup : (nodesOf edges).Nodup :=
    (List.perm_insertionSort _ _).nodup_iff.mpr (List.nodup_dedup _)
  exact ((List.pairwise_insertionSort (· ≤ ·) _).and nodup).imp fun both =>
    lt_of_le_of_ne both.1 both.2

theorem mem_nodesOf {edges : List (ℤ × ℤ)} (range : ∀ e ∈ edges, IntEdge e ∧ 0 ≤ e.1 ∧ 0 ≤ e.2)
    (v : ℕ) : v ∈ nodesOf edges ↔ Mentioned edges v := by
  have member : v ∈ nodesOf edges ↔ ∃ e ∈ edges, v = e.1.toNat ∨ v = e.2.toNat := by
    unfold nodesOf
    rw [(List.perm_insertionSort _ _).mem_iff, List.mem_dedup]
    simp [List.mem_flatMap]
  rw [member]
  constructor
  · rintro ⟨⟨a, b⟩, inEdges, first | second⟩
    · have positive := (range _ inEdges).2.1
      refine ⟨b, Or.inr ?_⟩
      rw [first, Int.toNat_of_nonneg positive]
      exact inEdges
    · have positive := (range _ inEdges).2.2
      refine ⟨a, Or.inl ?_⟩
      rw [second, Int.toNat_of_nonneg positive]
      exact inEdges
  · rintro ⟨u, inEdges | inEdges⟩
    · exact ⟨_, inEdges, Or.inr (by simp)⟩
    · exact ⟨_, inEdges, Or.inl (by simp)⟩

theorem mentioned_iff_nodesOf {edges : List (ℤ × ℤ)}
    (range : ∀ e ∈ edges, IntEdge e ∧ 0 ≤ e.1 ∧ 0 ≤ e.2) (v : ℤ) :
    Mentioned edges v ↔ ∃ u ∈ nodesOf edges, (u : ℤ) = v := by
  constructor
  · intro mentioned
    have positive : 0 ≤ v := by
      obtain ⟨u, edge | edge⟩ := mentioned
      · exact (range _ edge).2.2
      · exact (range _ edge).2.1
    have back : ((v.toNat : ℕ) : ℤ) = v := Int.toNat_of_nonneg positive
    refine ⟨v.toNat, ?_, back⟩
    rw [mem_nodesOf range, back]
    exact mentioned
  · rintro ⟨u, member, rfl⟩
    exact (mem_nodesOf range u).mp member

/-- How many nodes have a smaller id. -/
def rank (nodes : List ℕ) (v : ℕ) : ℕ := (nodes.filter (· < v)).length

section Rank

variable {nodes : List ℕ} (sorted : nodes.Pairwise (· < ·))

include sorted

/-- A node stands behind the nodes with smaller ids. -/
theorem getElem?_rank {v : ℕ} (member : v ∈ nodes) : nodes[rank nodes v]? = some v := by
  induction nodes with
  | nil => cases member
  | cons u nodes ih =>
      obtain ⟨first, rest⟩ := List.pairwise_cons.mp sorted
      rcases List.mem_cons.mp member with rfl | later
      · have none : nodes.filter (· < v) = [] := by
          rw [List.filter_eq_nil_iff]
          intro w inRest
          have := first w inRest
          simp only [decide_eq_true_eq]
          omega
        simp [rank, none]
      · have less := first v later
        have here := ih rest later
        simpa [rank, less] using here

theorem filter_subperm_range (v : ℕ) : (nodes.filter (· < v)).Subperm (List.range v) := by
  have nodup : (nodes.filter (· < v)).Nodup :=
    (sorted.imp fun less => Nat.ne_of_lt less).filter _
  apply nodup.subperm
  intro w member
  exact List.mem_range.mpr (of_decide_eq_true (List.mem_filter.mp member).2)

theorem rank_le (v : ℕ) : rank nodes v ≤ v := by
  have bound := (filter_subperm_range sorted v).length_le
  rwa [List.length_range] at bound

theorem rank_lt_rank {u v : ℕ} (less : u < v) (member : u ∈ nodes) :
    rank nodes u < rank nodes v := by
  have nodup : (u :: nodes.filter (· < u)).Nodup := by
    refine List.nodup_cons.mpr ⟨by simp, ?_⟩
    exact (sorted.imp fun less => Nat.ne_of_lt less).filter _
  have inside : u :: nodes.filter (· < u) ⊆ nodes.filter (· < v) := by
    intro w found
    rcases List.mem_cons.mp found with rfl | below
    · exact List.mem_filter.mpr ⟨member, decide_eq_true less⟩
    · obtain ⟨inNodes, smaller⟩ := List.mem_filter.mp below
      exact List.mem_filter.mpr
        ⟨inNodes, decide_eq_true (lt_trans (of_decide_eq_true smaller) less)⟩
  exact (nodup.subperm inside).length_le

/-- A node stands at the position of its id if no smaller id is missing. -/
theorem rank_eq_iff {v : ℕ} : rank nodes v = v ↔ ∀ w < v, w ∈ nodes := by
  constructor
  · intro full w less
    have perm := (filter_subperm_range sorted v).perm_of_length_le (by
      rw [List.length_range]
      exact full.ge)
    exact (List.mem_filter.mp (perm.mem_iff.mpr (List.mem_range.mpr less))).1
  · intro all
    have inside : List.range v ⊆ nodes.filter (· < v) := by
      intro w member
      have less := List.mem_range.mp member
      exact List.mem_filter.mpr ⟨all w less, decide_eq_true less⟩
    have bound := (List.nodup_range.subperm inside).length_le
    rw [List.length_range] at bound
    exact Nat.le_antisymm (rank_le sorted v) bound

end Rank

variable {k N : ℕ} {D : Deployment k N}

namespace Deployment

/-- The clients work on the graph that a database holds. -/
structure Reads (D : Deployment k N) (db : Db) : Prop where
  keys : ∃ reply, IsKeys db neighboursPattern reply ∧
    fetchKeys reply = D.keys.map fun v : ℕ => nodeName v
  nbrs : ∀ v u : ℕ, v ∈ D.keys → (u ∈ D.nbrs v ↔ decimal u ∈ members db (nodeKey v))

/-- The ranges of the clients partition `0 .. n - 1`. -/
structure Partitions (D : Deployment k N) (n : ℕ) : Prop where
  bounds : ∀ c i, D.firstNode c ≤ i → i ≤ D.lastNode c → 0 ≤ i ∧ i < n
  cover : ∀ i : ℤ, 0 ≤ i → i < n → ∃ c, D.firstNode c ≤ i ∧ i ≤ D.lastNode c
  disjoint : ∀ c d i, D.firstNode c ≤ i → i ≤ D.lastNode c → D.firstNode d ≤ i →
    i ≤ D.lastNode d → c = d

/-- A neighbour that a client reads without a lock is processed by that client. -/
def Aligned (D : Deployment k N) : Prop :=
  ∀ c v u, D.Owns c v → u ∈ D.nbrs v → (D.client c).Internal u → D.Owns c u

end Deployment

theorem HoldsNatGraph.inInt {edges : List (ℤ × ℤ)} {db : Db} (holds : HoldsNatGraph edges db)
    {v : ℕ} (member : v ∈ nodesOf edges) : InInt v :=
  ((mem_nodesOf holds.range v).mp member).inInt fun e inEdges => (holds.range e inEdges).1

/-- One of the replies to KEYS. -/
theorem HoldsNatGraph.isKeys {edges : List (ℤ × ℤ)} {db : Db} (holds : HoldsNatGraph edges db) :
    IsKeys db neighboursPattern ((nodesOf edges).map fun v : ℕ => nodeKey v) := by
  have range := holds.range
  refine ⟨?_, fun key => ?_⟩
  · refine List.Nodup.map_on ?_ ((nodesOf_sorted edges).imp fun less => Nat.ne_of_lt less)
    intro u memberU v memberV same
    exact Int.ofNat.inj (nodeKey_injective (holds.inInt memberU) (holds.inInt memberV) same)
  · rw [List.mem_map]
    constructor
    · intro ⟨v, member, same⟩
      subst same
      have matched := matches_nodeKey (holds.inInt member)
      exact ⟨(holds.keys _ matched).mpr ⟨v, (mem_nodesOf range v).mp member, rfl⟩,
        matched⟩
    · intro ⟨present, matched⟩
      obtain ⟨v, mentioned, same⟩ := (holds.keys key matched).mp present
      obtain ⟨u, member, rfl⟩ := (mentioned_iff_nodesOf range v).mp mentioned
      exact ⟨u, member, same.symm⟩

theorem IsKeys.perm {db : Db} {pattern : Text} {reply reply' : List Text}
    (isKeys : IsKeys db pattern reply) (isKeys' : IsKeys db pattern reply') :
    reply.Perm reply' :=
  (List.perm_ext_iff_of_nodup isKeys.1 isKeys'.1).mpr fun key =>
    (isKeys.2 key).trans (isKeys'.2 key).symm

namespace Deployment

variable {edges : List (ℤ × ℤ)} {db : Db}

theorem Reads.keys_eq (reads : D.Reads db) (holds : HoldsNatGraph edges db) :
    D.keys = nodesOf edges := by
  obtain ⟨reply, isKeys, names⟩ := reads.keys
  rw [fetchKeys_eq (fun v => holds.inInt) (nodesOf_sorted edges) (isKeys.perm holds.isKeys)]
    at names
  refine (List.map_injective_iff.mpr ?_ names).symm
  intro u v same
  exact Int.ofNat.inj (decimal_injective (List.append_cancel_left same))

theorem Reads.mem_nbrs (reads : D.Reads db) (holds : HoldsNatGraph edges db) {v u : ℕ}
    (member : v ∈ D.keys) : u ∈ D.nbrs v ↔ Joined edges u v := by
  have inInt : InInt v := by
    rw [reads.keys_eq holds] at member
    exact holds.inInt member
  rw [reads.nbrs v u member, holds.members v _ inInt]
  constructor
  · intro ⟨w, joined, same⟩
    rwa [decimal_injective same]
  · intro joined
    exact ⟨u, joined, rfl⟩

/-- A client has the nodes whose position is in its range. -/
theorem owns_iff (sorted : D.keys.Pairwise (· < ·)) {c : Fin k} {v : ℕ} :
    D.Owns c v ↔ v ∈ D.keys ∧ D.firstNode c ≤ rank D.keys v ∧
      (rank D.keys v : ℤ) ≤ D.lastNode c := by
  have position : v ∈ D.keys → (D.client c).keyAt (rank D.keys v) = some v := by
    intro member
    unfold Client.keyAt
    rw [if_pos (Int.natCast_nonneg _), Int.toNat_natCast]
    exact getElem?_rank sorted member
  constructor
  · intro ⟨i, low, high, key⟩
    have member : v ∈ D.keys := by
      unfold Client.keyAt at key
      split at key
      · exact List.mem_of_getElem? key
      · cases key
    have same := keyAt_injective (sorted.imp fun less => Nat.ne_of_lt less) key (position member)
    rw [← same]
    exact ⟨member, low, high⟩
  · intro ⟨member, low, high⟩
    exact ⟨_, low, high, position member⟩

theorem aligned_iff (sorted : D.keys.Pairwise (· < ·))
    (closed : ∀ v u, v ∈ D.keys → u ∈ D.nbrs v → u ∈ D.keys) :
    D.Aligned ↔ ∀ c v u, D.Owns c v → u ∈ D.nbrs v → (D.client c).Internal u →
      D.firstNode c ≤ rank D.keys u := by
  refine forall_congr' fun c => forall_congr' fun v => forall_congr' fun u => ?_
  refine forall_congr' fun owns => forall_congr' fun adjacent => forall_congr' fun range => ?_
  rw [owns_iff sorted] at owns ⊢
  have high : (rank D.keys u : ℤ) ≤ D.lastNode c := by
    have small := rank_le sorted u
    have inRange : (u : ℤ) ≤ D.lastNode c := range.2
    omega
  constructor
  · intro owned
    exact owned.2.1
  · intro low
    exact ⟨closed v u owns.1 adjacent, low, high⟩

theorem aligned_of_dense {n : ℕ} (sorted : D.keys.Pairwise (· < ·))
    (closed : ∀ v u, v ∈ D.keys → u ∈ D.nbrs v → u ∈ D.keys) (partitions : D.Partitions n)
    (dense : ∀ u v, v ∈ D.keys → u ∈ D.nbrs v → u < v → u < n → ∀ w < u, w ∈ D.keys) :
    D.Aligned := by
  rw [aligned_iff sorted closed]
  intro c v u owns adjacent range
  obtain ⟨member, low, high⟩ := (owns_iff sorted).mp owns
  obtain ⟨lowU, highU⟩ := range
  change D.firstNode c ≤ u at lowU
  change (u : ℤ) ≤ D.lastNode c at highU
  rcases lt_trichotomy u v with less | same | greater
  · -- The range ends before `n`, so no id below `u` is missing.
    have last := (partitions.bounds c (D.lastNode c) (lowU.trans highU) le_rfl).2
    rw [(rank_eq_iff sorted).mpr (dense u v member adjacent less (by omega))]
    exact lowU
  · rw [same]
    exact low
  · have later := rank_lt_rank sorted greater member
    omega

theorem owner_unique_of_partitions (sorted : D.keys.Pairwise (· < ·))
    (partitions : D.Partitions D.keys.length) {v : ℕ} (member : v ∈ D.keys) :
    ∃! c, D.Owns c v := by
  have bound : rank D.keys v < D.keys.length :=
    (List.getElem?_eq_some_iff.mp (getElem?_rank sorted member)).1
  obtain ⟨c, low, high⟩ := partitions.cover (rank D.keys v) (by omega) (by omega)
  refine ⟨c, (owns_iff sorted).mpr ⟨member, low, high⟩, fun d owns => ?_⟩
  obtain ⟨_, low', high'⟩ := (owns_iff sorted).mp owns
  exact partitions.disjoint d c _ low' high' low high

theorem keyAt_ne_none (partitions : D.Partitions D.keys.length) {c : Fin k} {i : ℤ}
    (low : D.firstNode c ≤ i) (high : i ≤ D.lastNode c) : (D.client c).keyAt i ≠ none := by
  obtain ⟨nonneg, bound⟩ := partitions.bounds c i low high
  unfold Client.keyAt
  rw [if_pos nonneg, ne_eq, List.getElem?_eq_none_iff]
  change ¬ D.keys.length ≤ i.toNat
  omega

end Deployment

/-- The middle one of three clients gets the positions `first` to `last`. -/
def threeRanges (nodes : List ℕ) (nbrs : ℕ → Finset ℕ) (first last : ℤ) : Deployment 3 1 where
  nbrs := nbrs
  keys := nodes
  firstNode := ![0, first, last + 1]
  lastNode := ![first - 1, last, nodes.length - 1]
  server _ := Fin.last 0
  required := 0
  plain := 0
  order := .sync

theorem threeRanges_partitions (nodes : List ℕ) (nbrs : ℕ → Finset ℕ) {first last : ℤ}
    (low : 0 ≤ first) (order : first ≤ last + 1) (high : last < nodes.length) :
    (threeRanges nodes nbrs first last).Partitions nodes.length where
  bounds := by
    intro c i
    fin_cases c <;> simp [threeRanges] <;> omega
  cover := by
    intro i lower upper
    by_cases left : i < first
    · exact ⟨0, by simp [threeRanges]; omega⟩
    · by_cases middle : i ≤ last
      · exact ⟨1, by simp [threeRanges]; omega⟩
      · exact ⟨2, by simp [threeRanges]; omega⟩
  disjoint := by
    intro c d i
    fin_cases c <;> fin_cases d <;> simp [threeRanges] <;> omega

instance (edges : List (ℤ × ℤ)) (u v : ℤ) : Decidable (Joined edges u v) :=
  inferInstanceAs (Decidable (_ ∨ _))

def nbrsOf (edges : List (ℤ × ℤ)) (v : ℕ) : Finset ℕ :=
  (nodesOf edges).toFinset.filter fun u : ℕ => Joined edges u v

theorem HoldsNatGraph.mem_nbrsOf {edges : List (ℤ × ℤ)} {db : Db} (holds : HoldsNatGraph edges db)
    (u v : ℕ) : u ∈ nbrsOf edges v ↔ Joined edges u v := by
  rw [nbrsOf, Finset.mem_filter, List.mem_toFinset, mem_nodesOf holds.range]
  exact and_iff_right_of_imp fun joined => ⟨v, joined.symm⟩

theorem HoldsNatGraph.reads {edges : List (ℤ × ℤ)} {db : Db} (holds : HoldsNatGraph edges db)
    (keys : D.keys = nodesOf edges) (nbrs : D.nbrs = nbrsOf edges) : D.Reads db := by
  refine ⟨⟨_, holds.isKeys, ?_⟩, ?_⟩
  · rw [keys]
    exact fetchKeys_eq (fun v => holds.inInt) (nodesOf_sorted edges) (List.Perm.refl _)
  · intro v u member
    rw [keys] at member
    rw [nbrs, holds.mem_nbrsOf, holds.members v _ (holds.inInt member)]
    constructor
    · intro joined
      exact ⟨u, joined, rfl⟩
    · intro ⟨w, joined, same⟩
      rwa [decimal_injective same]

/-- Where an id below the smaller end of an edge is missing, some ranges separate the
ends although both bounds admit the smaller one. -/
theorem HoldsNatGraph.exists_not_aligned {edges : List (ℤ × ℤ)} {db : Db}
    (holds : HoldsNatGraph edges db) {u v : ℕ} (joined : Joined edges u v) (less : u < v)
    (small : u < (nodesOf edges).length)
    (gap : rank (nodesOf edges) u < u) :
    ∃ D : Deployment 3 1, D.Reads db ∧ D.Partitions (nodesOf edges).length ∧ ¬ D.Aligned := by
  have sorted := nodesOf_sorted edges
  have memberU : u ∈ nodesOf edges := (mem_nodesOf holds.range u).mpr ⟨v, joined.symm⟩
  have memberV : v ∈ nodesOf edges := (mem_nodesOf holds.range v).mpr ⟨u, joined⟩
  have before := rank_lt_rank sorted less memberU
  have inside : rank (nodesOf edges) v < (nodesOf edges).length :=
    (List.getElem?_eq_some_iff.mp (getElem?_rank sorted memberV)).1
  let D := threeRanges (nodesOf edges) (nbrsOf edges) (rank (nodesOf edges) u + 1)
    (max (rank (nodesOf edges) v) u)
  have reads : D.Reads db := holds.reads rfl rfl
  refine ⟨D, reads, threeRanges_partitions _ _ (by omega) (by omega) (by omega), ?_⟩
  intro aligned
  have owns : D.Owns 1 v := by
    refine (Deployment.owns_iff sorted).mpr ⟨memberV, ?_, ?_⟩
    · change (rank (nodesOf edges) u + 1 : ℤ) ≤ rank (nodesOf edges) v
      omega
    · change (rank (nodesOf edges) v : ℤ) ≤ max (rank (nodesOf edges) v : ℤ) u
      omega
  have internal : (D.client 1).Internal u := by
    refine ⟨?_, ?_⟩
    · change (rank (nodesOf edges) u + 1 : ℤ) ≤ u
      omega
    · change (u : ℤ) ≤ max (rank (nodesOf edges) v : ℤ) u
      omega
  have owned := aligned 1 v u owns ((reads.mem_nbrs holds memberV).mpr joined) internal
  have low := ((Deployment.owns_iff sorted).mp owned).2.1
  change (rank (nodesOf edges) u + 1 : ℤ) ≤ rank (nodesOf edges) u at low
  omega

/-- Neighbours of nodes are nodes. -/
theorem HoldsNatGraph.mem_keys {edges : List (ℤ × ℤ)} {db : Db} (holds : HoldsNatGraph edges db)
    (reads : D.Reads db) (v u : ℕ) (member : v ∈ D.keys) (adjacent : u ∈ D.nbrs v) :
    u ∈ D.keys := by
  have edge := (reads.mem_nbrs holds member).mp adjacent
  rw [reads.keys_eq holds, mem_nodesOf holds.range]
  exact ⟨v, edge.symm⟩

theorem HoldsNatGraph.aligned {edges : List (ℤ × ℤ)} {db : Db} (holds : HoldsNatGraph edges db)
    (reads : D.Reads db) (partitions : D.Partitions (nodesOf edges).length)
    (dense : ∀ u v : ℕ, Joined edges u v → u < v → u < (nodesOf edges).length →
      ∀ w < u, Mentioned edges w) : D.Aligned := by
  have keys := reads.keys_eq holds
  have sorted : D.keys.Pairwise (· < ·) := by
    rw [keys]
    exact nodesOf_sorted edges
  refine Deployment.aligned_of_dense sorted (holds.mem_keys reads) partitions ?_
  intro u v member adjacent less small w smaller
  rw [keys, mem_nodesOf holds.range]
  exact dense u v ((reads.mem_nbrs holds member).mp adjacent) less small w smaller

/-- With the positions `0 .. n - 1` divided among the clients, each node has one
client and no index is outside the array. A neighbour read without a lock belongs to
the same client exactly if as many ids as the client's first position are smaller; for
all ranges, exactly if no id is missing below the smaller end of an edge, unless that
end is `n` or more. -/
theorem work_assignment {edges : List (ℤ × ℤ)} {db : Db} (filled : Filled edges db)
    {reply : List Text} (isKeys : IsKeys db neighboursPattern reply) :
    (∀ (k N : ℕ) (D : Deployment k N), D.Reads db → D.Partitions reply.length →
      (∀ v : ℕ, Mentioned edges v → ∃! c, D.Owns c v) ∧
      (∀ c i, D.firstNode c ≤ i → i ≤ D.lastNode c → (D.client c).keyAt i ≠ none) ∧
      (D.Aligned ↔ ∀ c v u, D.Owns c v → u ∈ D.nbrs v → (D.client c).Internal u →
        D.firstNode c ≤ rank D.keys u)) ∧
    ((∀ (k N : ℕ) (D : Deployment k N), D.Reads db → D.Partitions reply.length → D.Aligned) ↔
      ∀ u v : ℕ, Joined edges u v → u < v → u < reply.length → ∀ w < u, Mentioned edges w) := by
  have holds := filled.holds
  have sorted := nodesOf_sorted edges
  have count : reply.length = (nodesOf edges).length := by
    rw [(isKeys.perm holds.isKeys).length_eq, List.length_map]
  refine ⟨?_, ?_, ?_⟩
  · intro k N D reads partitions
    have keys := reads.keys_eq holds
    rw [count, ← keys] at partitions
    rw [← keys] at sorted
    refine ⟨?_, fun c i => Deployment.keyAt_ne_none partitions,
      Deployment.aligned_iff sorted (holds.mem_keys reads)⟩
    intro v mentioned
    rw [← mem_nodesOf holds.range, ← keys] at mentioned
    exact Deployment.owner_unique_of_partitions sorted partitions mentioned
  · intro aligned u v joined less small w smaller
    rw [count] at small aligned
    rw [← mem_nodesOf holds.range]
    by_contra missing
    have gap : rank (nodesOf edges) u < u := by
      refine lt_of_le_of_ne (rank_le sorted u) fun full => ?_
      exact missing ((rank_eq_iff sorted).mp full w smaller)
    obtain ⟨D, reads, partitions, apart⟩ := holds.exists_not_aligned joined less small gap
    exact apart (aligned 3 1 D reads partitions)
  · intro dense k N D reads partitions
    rw [count] at dense partitions
    exact holds.aligned reads partitions dense

/-- A file read into an empty server. -/
theorem exists_filled (copy : Copy) (files : Text → Option Text) (command name : StringObj)
    (args : List StringObj) {text : Text} (found : copy.Finds name)
    (opened : files name.text = some text)
    (short : ∀ line ∈ text.splitOn '\n', line.length < 255)
    (plain : ∀ e ∈ fileEdges text, PlainEdge e ∧ 0 ≤ e.1 ∧ 0 ≤ e.2) (s : Loading)
    (empty : ∀ key, s.db key = none) :
    ∃ s', s.addGraphCommand copy files (command :: name :: args) = some s' ∧
      Loads (fileEdges text) s.db s'.db ∧ Filled (fileEdges text) s'.db := by
  have sets : HoldsSets s.db := by
    intro v obj _ found
    rw [empty] at found
    cases found
  have range : ∀ e ∈ fileEdges text, IntEdge e := fun e member => (plain e member).1.1
  obtain ⟨s', done⟩ := Loading.exists_addGraphCommand copy files command name args found opened
    sets short fun e member => (plain e member).1
  have loads := Loading.loads_of_addGraphCommand copy files command name args opened sets short
    range done
  refine ⟨s', done, loads, ?_, fun e member => (plain e member).2⟩
  have read := Loading.edgesRead_eq files command name args opened short range
  rw [← List.nil_append (fileEdges text), ← read]
  exact .load (.start fun key _ => empty key) copy files _ done

/-- The same with the edges of the file written out. -/
theorem exists_filled_edges (copy : Copy) (text : Text) (edges : List (ℤ × ℤ))
    (same : fileEdges text = edges) (short : ∀ line ∈ text.splitOn '\n', line.length < 255)
    (plain : ∀ e ∈ edges, PlainEdge e ∧ 0 ≤ e.1 ∧ 0 ≤ e.2) :
    ∃ s', (Loading.mk (fun _ => none) [] 0).addGraphCommand copy (fun _ => some text)
        longNameArgs = some s' ∧
      Loads edges (fun _ => none) s'.db ∧ Filled edges s'.db := by
  subst same
  exact exists_filled copy (fun _ => some text) _ _ [] (Or.inr rfl) rfl short plain
    (Loading.mk (fun _ => none) [] 0) fun _ => rfl

/-- With the ids `0, 1, 2` nothing is missing. -/
theorem path_aligned : ∃ s', (Loading.mk (fun _ => none) [] 0).addGraphCommand .keydb
      (fun _ => some "0,1\n1,2\n".toList) longNameArgs = some s' ∧
    ∀ (k N : ℕ) (D : Deployment k N), D.Reads s'.db → D.Partitions 3 → D.Aligned := by
  obtain ⟨s', done, _, filled⟩ := exists_filled_edges .keydb "0,1\n1,2\n".toList
    [(0, 1), (1, 2)] (by decide) (by decide) (by simp [PlainEdge, IntEdge, InInt])
  refine ⟨s', done, ?_⟩
  have length : ((nodesOf [(0, 1), (1, 2)]).map fun v : ℕ => nodeKey v).length = 3 := by decide
  have aligned := (work_assignment filled filled.holds.isKeys).2
  rw [length] at aligned
  apply aligned.mpr
  intro u v joined less _ w smaller
  have first : w = 0 := by
    simp [Joined] at joined
    omega
  exact ⟨1, by simp [first, Joined]⟩

/-- A path with the ids `1, 2, 3`, the first two positions for one client and the
last one for the other. -/
def oneBased : Deployment 2 1 where
  nbrs := nbrsOf [(1, 2), (2, 3)]
  keys := nodesOf [(1, 2), (2, 3)]
  firstNode := ![0, 2]
  lastNode := ![1, 2]
  server _ := Fin.last 0
  required := 0
  plain := 0
  order := .sync

/-- Client 1 has node 3 and takes node 2 for its own, which client 0 has. -/
theorem oneBased_not_aligned : ∃ s', (Loading.mk (fun _ => none) [] 0).addGraphCommand .keydb
      (fun _ => some "1,2\n2,3\n".toList) longNameArgs = some s' ∧
    oneBased.Reads s'.db ∧ (∃ reply, IsKeys s'.db neighboursPattern reply ∧
      oneBased.Partitions reply.length) ∧
    oneBased.Owns 1 3 ∧ 2 ∈ oneBased.nbrs 3 ∧ (oneBased.client 1).Internal 2 ∧
    oneBased.Owns 0 2 ∧ ¬ oneBased.Owns 1 2 := by
  have nodes : oneBased.keys = [1, 2, 3] := by decide
  obtain ⟨s', done, _, filled⟩ := exists_filled_edges .keydb "1,2\n2,3\n".toList
    [(1, 2), (2, 3)] (by decide) (by decide) (by simp [PlainEdge, IntEdge, InInt])
  have sorted : oneBased.keys.Pairwise (· < ·) := by
    rw [nodes]
    decide
  have owns : ∀ c v, oneBased.Owns c v ↔ v ∈ oneBased.keys ∧
      oneBased.firstNode c ≤ rank oneBased.keys v ∧
      (rank oneBased.keys v : ℤ) ≤ oneBased.lastNode c :=
    fun c v => Deployment.owns_iff sorted
  refine ⟨s', done, filled.holds.reads rfl rfl, ⟨_, filled.holds.isKeys, ?_⟩, ?_, by decide,
    by decide, ?_, ?_⟩
  · have length : ((nodesOf [(1, 2), (2, 3)]).map fun v : ℕ => nodeKey v).length = 3 := by decide
    rw [length]
    refine ⟨?_, ?_, ?_⟩
    · intro c i
      fin_cases c <;> simp [oneBased] <;> omega
    · intro i low high
      by_cases left : i < 2
      · exact ⟨0, by simp [oneBased]; omega⟩
      · exact ⟨1, by simp [oneBased]; omega⟩
    · intro c d i
      fin_cases c <;> fin_cases d <;> simp [oneBased] <;> omega
  · exact (owns 1 3).mpr (by decide)
  · exact (owns 0 2).mpr (by decide)
  · rw [owns 1 2]
    decide

end DistributedColoring

import DistributedColoring.WorkAssignment
import DistributedColoring.Reload
import DistributedColoring.Dispatch

set_option autoImplicit false

/- From the file to the colours: `add_graph` loads the graph, the scripts divide the
positions among the clients, and the clients colour it on one server. -/
namespace DistributedColoring

open CText
open GreedyColoring (greedy)

variable {k N : ℕ} {D : Deployment k N}

namespace Deployment

/-- Each client is one of the launches; `main` reads its bounds with `atoi`. -/
structure Launched (D : Deployment k N) (launches : List Launch) : Prop where
  count : launches.length = k
  bounds : ∀ c : Fin k, ∃ l, launches[c.val]? = some l ∧
    D.firstNode c = atoi l.start ∧ D.lastNode c = atoi l.finish

end Deployment

/-- The bounds of the clients, in the order of the launches. -/
theorem Deployment.Launched.bounds_eq {launches : List Launch} (launched : D.Launched launches) :
    (launches.map fun l => (atoi l.start, atoi l.finish)) =
      List.ofFn fun c => (D.firstNode c, D.lastNode c) := by
  apply List.ext_getElem
  · rw [List.length_map, List.length_ofFn, launched.count]
  · intro j inside _
    rw [List.length_map, launched.count] at inside
    obtain ⟨l, found, first, last⟩ := launched.bounds ⟨j, inside⟩
    obtain ⟨_, same⟩ := List.getElem?_eq_some_iff.mp found
    rw [List.getElem_map, List.getElem_ofFn, same, first, last]

theorem map_atoi_decimal {rs : List (ℤ × ℤ)} (range : ∀ r ∈ rs, InInt r.1 ∧ InInt r.2) :
    (rs.map fun r => (decimal r.1, decimal r.2)).map (fun p => (atoi p.1, atoi p.2)) = rs := by
  rw [List.map_map]
  refine (List.map_congr_left fun r member => ?_).trans (List.map_id rs)
  have first := atoi_decimal (range r member).1 [] (by simp)
  have last := atoi_decimal (range r member).2 [] (by simp)
  rw [List.append_nil] at first last
  exact Prod.ext first last

/-- The bounds that `main` reads are the ranges as numbers. -/
theorem Deployment.Launched.bounds_perm {launches : List Launch} (launched : D.Launched launches)
    {rs : List (ℤ × ℤ)} (range : ∀ r ∈ rs, InInt r.1 ∧ InInt r.2)
    (given : (launches.map fun l => (l.start, l.finish)).Perm
      (rs.map fun r => (decimal r.1, decimal r.2))) :
    (List.ofFn fun c => (D.firstNode c, D.lastNode c)).Perm rs := by
  have numbers := given.map fun p => (atoi p.1, atoi p.2)
  rw [map_atoi_decimal range, List.map_map] at numbers
  rw [← launched.bounds_eq]
  exact numbers

/-- The clients that the scripts start on the ids `0 .. n - 1` partition them. -/
theorem launched_partitions {n numPartitions : ℕ} (nonempty : 0 < n) (small : n < 2 ^ 31)
    (positive : 1 ≤ numPartitions) {launches : List Launch}
    (given : (launches.map fun l => (l.start, l.finish)).Perm
      ((ranges 0 (n - 1) numPartitions).map fun r => (decimal r.1, decimal r.2)))
    (launched : D.Launched launches) : D.Partitions n := by
  have order : (0 : ℤ) ≤ n - 1 := by omega
  have range : ∀ r ∈ ranges 0 (n - 1) numPartitions, InInt r.1 ∧ InInt r.2 := by
    intro r member
    have bounds := ranges_bounds order positive member
    unfold InInt
    omega
  have perm := launched.bounds_perm range given
  have apart : (List.ofFn fun c => (D.firstNode c, D.lastNode c)).Pairwise
      fun p q => p.2 < q.1 ∨ q.2 < p.1 :=
    (perm.pairwise_iff fun either => either.symm).mpr
      ((ranges_ordered order positive).imp fun less => Or.inl less)
  refine ⟨?_, ?_, ?_⟩
  · intro c i low high
    have member := perm.mem_iff.mp (List.mem_ofFn.mpr ⟨c, rfl⟩)
    have inside := (mem_ranges_iff order positive i).mp ⟨_, member, low, high⟩
    omega
  · intro i low high
    obtain ⟨r, member, inside⟩ := (mem_ranges_iff order positive i).mpr ⟨low, by omega⟩
    obtain ⟨c, same⟩ := List.mem_ofFn.mp (perm.mem_iff.mpr member)
    subst same
    exact ⟨c, inside⟩
  · intro c d i lowC highC lowD highD
    by_contra other
    rw [List.pairwise_ofFn] at apart
    rcases lt_or_gt_of_ne other with less | greater
    · have := apart less
      omega
    · have := apart greater
      omega

/-- So they do whatever the orders in which bash lists the arrays. -/
theorem dispatched_partitions {n : ℕ} (nonempty : 0 < n) (small : n < 2 ^ 31) (username : Text)
    {servers clients partitions names : List Text} (distinct : clients.Nodup)
    (present : clients ≠ []) (few : clients.length < 2 ^ 63)
    (listed : partitions.Perm ((getPartition 0 (n - 1) clients.length).map Prod.snd))
    (named : ∀ map ∈ generateMap username clients, names.Perm (map.map Prod.fst))
    {launches : List Launch}
    (started : launches ∈ runCodeSync username servers clients partitions names)
    (launched : D.Launched launches) : D.Partitions n := by
  have many : 1 ≤ clients.length := List.length_pos_iff.mpr present
  have order : (0 : ℤ) ≤ n - 1 := by omega
  have fits : FitsLong 0 (n - 1) clients.length :=
    ⟨by omega, by omega, by omega, few, .inl (by omega)⟩
  rw [getPartition_eq order many fits] at listed
  have count : names.length = (ranges 0 (n - 1) clients.length).length := by
    rw [names_length distinct named started, ranges, List.length_map, List.length_range]
  exact launched_partitions nonempty small many (runCodeSync_eq started listed count).2 launched

/-- What the range test needs of a stored graph is enough for the colouring. -/
theorem HoldsNatGraph.wellposed {edges : List (ℤ × ℤ)} {db : Db} (holds : HoldsNatGraph edges db)
    (reads : D.Reads db) (outside : ∀ v, v ∉ D.keys → D.nbrs v = ∅)
    (partitions : D.Partitions D.keys.length) (aligned : D.Aligned)
    (reaches : ∀ c t, D.Reaches c t) : D.Wellposed := by
  have keys := reads.keys_eq holds
  have sorted : D.keys.Pairwise (· < ·) := by
    rw [keys]
    exact nodesOf_sorted edges
  have joined : ∀ u v, u ∈ D.nbrs v → Joined edges u v := by
    intro u v adjacent
    have member : v ∈ D.keys := by
      by_contra missing
      rw [outside v missing] at adjacent
      cases adjacent
    exact (reads.mem_nbrs holds member).mp adjacent
  have mem_keys : ∀ u v : ℕ, Joined edges u v → u ∈ D.keys := by
    intro u v edge
    rw [keys, mem_nodesOf holds.range]
    exact ⟨v, edge.symm⟩
  refine ⟨⟨sorted.imp fun less => Nat.ne_of_lt less, partitions.disjoint⟩, ?_, ?_, ?_, reaches⟩
  · intro u v adjacent
    have edge := joined u v adjacent
    exact (reads.mem_nbrs holds (mem_keys u v edge)).mpr edge.symm
  · intro u v adjacent
    have member := mem_keys u v (joined u v adjacent)
    exact (Deployment.owner_unique_of_partitions sorted partitions member).exists
  · intro c u v owns adjacent range
    exact aligned c v u owns adjacent range

/-- Loading a file into an empty server leaves what the clients start from. -/
theorem Loads.represents_loaded {edges : List (ℤ × ℤ)} {db db' : Db} (loads : Loads edges db db')
    (empty : ∀ key, db key = none) (range : ∀ e ∈ edges, IntEdge e)
    (mem : ∀ v : ℕ, v ∈ D.keys ↔ Mentioned edges v) : Represents db' D.loaded := by
  have nothing : Represents db fun _ => none := fun key => empty key.text
  have represents := loads.represents range mem nothing
  have same : reload D.keys (fun _ => none) = D.loaded := by
    funext key
    cases key <;> rfl
  rwa [same] at represents

/-- A file loaded into an empty server, coloured there by the clients that the scripts
start: whatever the interleaving, they leave the colours of the sequential algorithm. -/
theorem pipeline_serializable (copy : Copy) (files : Text → Option Text)
    (command name : StringObj) (args : List StringObj) {text : Text}
    (found : copy.Finds name) (opened : files name.text = some text)
    (short : ∀ line ∈ text.splitOn '\n', line.length < 255)
    (plain : ∀ e ∈ fileEdges text, PlainEdge e ∧ 0 ≤ e.1 ∧ 0 ≤ e.2) (s : Loading)
    (empty : ∀ key, s.db key = none)
    (dense : ∀ u v : ℕ, Joined (fileEdges text) u v → u < v →
      u < (nodesOf (fileEdges text)).length → ∀ w < u, Mentioned (fileEdges text) w)
    (nonempty : 0 < (nodesOf (fileEdges text)).length)
    (small : (nodesOf (fileEdges text)).length < 2 ^ 31) (username : Text)
    (servers clients partitions names : List Text) (distinct : clients.Nodup)
    (present : clients ≠ []) (few : clients.length < 2 ^ 63)
    (listed : partitions.Perm
      ((getPartition 0 ((nodesOf (fileEdges text)).length - 1) clients.length).map Prod.snd))
    (named : ∀ map ∈ generateMap username clients, names.Perm (map.map Prod.fst)) :
    ∃ s', s.addGraphCommand copy files (command :: name :: args) = some s' ∧
      ∀ (k : ℕ) (D : Deployment k 1), D.Reads s'.db → (∀ v, v ∉ D.keys → D.nbrs v = ∅) →
        (∃ launches ∈ runCodeSync username servers clients partitions names,
          D.Launched launches) →
        Represents s'.db D.loaded ∧
        ∀ t, GuardedRun.Reaches D.step (D.start D.loaded) t →
          (∀ c, (t.loc c).pc = .finished) →
          (∀ v ∈ D.keys, t.net.store 0 (.color v) = some (greedy D.nbrs t.history v)) ∧
          ∀ u v : ℕ, Joined (fileEdges text) u v →
            t.net.store 0 (.color u) ≠ t.net.store 0 (.color v) := by
  obtain ⟨s', done, loads, filled⟩ := exists_filled copy files command name args found opened
    short plain s empty
  have holds := filled.holds
  refine ⟨s', done, ?_⟩
  rintro k D reads outside ⟨launches, started, launched⟩
  have keys := reads.keys_eq holds
  have sorted : D.keys.Pairwise (· < ·) := by
    rw [keys]
    exact nodesOf_sorted _
  have mem : ∀ v : ℕ, v ∈ D.keys ↔ Mentioned (fileEdges text) v := by
    intro v
    rw [keys, mem_nodesOf holds.range]
  have divided :=
    dispatched_partitions nonempty small username distinct present few listed named started
      launched
  have aligned := holds.aligned reads divided dense
  rw [← keys] at divided
  have posed := holds.wellposed reads outside divided aligned
    fun c t => Or.inl (Subsingleton.elim t (D.server c))
  refine ⟨loads.represents_loaded empty (fun e member => (plain e member).1.1) mem, ?_⟩
  intro t run finished
  have colors : ∀ c u, D.Owns c u → D.loaded (.color u) = some 0 := by
    intro c u owns
    have member := ((Deployment.owns_iff sorted).mp owns).1
    simp [Deployment.loaded, member]
  have serial := serial_of_one_server posed colors (fun _ => rfl) run
  refine ⟨?_, ?_⟩
  · intro v member
    obtain ⟨c, owns, _⟩ := Deployment.owner_unique_of_partitions sorted divided member
    exact (serial.final finished).2 c v 0 owns
  · intro u v joined
    have member : v ∈ D.keys := (mem v).mpr ⟨u, joined⟩
    have apart : u ≠ v := by
      rintro rfl
      rcases joined with edge | edge <;> exact (plain _ edge).1.2 rfl
    exact serial.proper posed finished 0 ((reads.mem_nbrs holds member).mpr joined) apart

end DistributedColoring

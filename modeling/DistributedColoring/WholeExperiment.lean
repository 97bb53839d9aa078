import DistributedColoring.CheckColor
import DistributedColoring.FairTermination
import DistributedColoring.SoloRun

set_option autoImplicit false

/- An experiment on one server from the file to the verdict of the checker: `add_graph`
loads the file, the scripts start the clients, every fair run of them ends, and then
1server/check_color.py finds nothing. -/
namespace DistributedColoring

open CText
open FairTrace
open GuardedRun
open ReplicatedLog

variable {k : ℕ} {D : Deployment k 1}

/-- A single server holds what it was given and then the SETs of its log. -/
theorem store_eq_overlay {store : Key → Option ℤ} {s : State k 1} (valid : D.Valid)
    (run : Reaches D.step (D.start store) s) (t : Fin 1) :
    s.net.store t = overlay store (s.net.log t) := by
  have held := run.invariant (P := fun s => Sound D s ∧ ∀ t, s.net.store t =
    overlay store (s.net.log t)) ⟨start_sound store, fun _ => rfl⟩ ?_
  · exact held.2 t
  · rintro x a y ⟨sound, stored⟩ _ taken
    have kind := step_cases taken
    refine ⟨sound.step valid kind, fun t => ?_⟩
    cases kind with
    | quiet c move l' quiet => exact stored t
    | send c w again pc =>
        rw [put_net, send_net, Subsingleton.elim t (D.server c), Net.write_log_self,
          overlay_concat, ← stored]
        exact Function.update_self _ _ _
    | deliver r o key v front =>
        exact absurd (Subsingleton.elim r o) (Net.apart_of_front sound.wf front)

/-- SETs of the clients leave the graph alone. -/
theorem HoldsGraph.afterSets {edges : List (ℤ × ℤ)} {db : Db} (holds : HoldsGraph edges db)
    (log : List (Key × ℤ)) : HoldsGraph edges (DistributedColoring.afterSets db log) := by
  induction log generalizing db with
  | nil => exact holds
  | cons e log ih => exact ih (holds.write _ (not_matches_text e.1))

/-- Clients that read a loaded graph without loops neither collide nor crash. -/
theorem HoldsNatGraph.sane {edges : List (ℤ × ℤ)} {db : Db} (holds : HoldsNatGraph edges db)
    (plain : ∀ e ∈ edges, e.1 ≠ e.2) (reads : D.Reads db)
    (partitions : D.Partitions D.keys.length) : D.Sane := by
  have sorted : D.keys.Pairwise (· < ·) := by
    rw [reads.keys_eq holds]
    exact nodesOf_sorted edges
  refine ⟨⟨sorted.imp fun less => Nat.ne_of_lt less, partitions.disjoint⟩, ?_, ?_⟩
  · intro c v owns loop
    have member := ((Deployment.owns_iff sorted).mp owns).1
    have joined := (reads.mem_nbrs holds member).mp loop
    exact absurd rfl (CheckColor.apart_of_joined plain joined)
  · intro c i low high
    obtain ⟨positive, bound⟩ := partitions.bounds c i low high
    have inside : i.toNat < D.keys.length := by omega
    unfold Client.keyAt
    rw [if_pos positive]
    change D.keys[i.toNat]? ≠ none
    rw [List.getElem?_eq_getElem inside]
    exact Option.some_ne_none _

/-- A file of edges that one server can be filled from and that the clients can divide. -/
structure EdgeFile (text : Text) : Prop where
  short : ∀ line ∈ text.splitOn '\n', line.length < 255
  plain : ∀ e ∈ fileEdges text, PlainEdge e ∧ 0 ≤ e.1 ∧ 0 ≤ e.2
  dense : ∀ u v : ℕ, Joined (fileEdges text) u v → u < v →
    u < (nodesOf (fileEdges text)).length → ∀ w < u, Mentioned (fileEdges text) w
  nonempty : 0 < (nodesOf (fileEdges text)).length
  small : (nodesOf (fileEdges text)).length < 2 ^ 31

/-- Clients on one server that holds the graph of `edges` and zero colours. -/
structure Installed (D : Deployment k 1) (edges : List (ℤ × ℤ)) (db : Db) : Prop where
  holds : HoldsNatGraph edges db
  plain : ∀ e ∈ edges, e.1 ≠ e.2
  reads : D.Reads db
  sane : D.Sane
  posed : D.Wellposed
  colors : ∀ c u, D.Owns c u → D.loaded (.color u) = some 0
  represents : Represents db D.loaded

/-- What the scripts start after a file has been loaded into an empty server. -/
theorem EdgeFile.installed {text : Text} (file : EdgeFile text) {db db' : Db}
    (empty : ∀ key, db key = none) (loads : Loads (fileEdges text) db db')
    (filled : Filled (fileEdges text) db') (username : Text)
    {servers clients partitions names : List Text} (distinct : clients.Nodup)
    (present : clients ≠ []) (few : clients.length < 2 ^ 63)
    (listed : partitions.Perm
      ((getPartition 0 ((nodesOf (fileEdges text)).length - 1) clients.length).map Prod.snd))
    (named : ∀ map ∈ generateMap username clients, names.Perm (map.map Prod.fst))
    (reads : D.Reads db') (outside : ∀ v, v ∉ D.keys → D.nbrs v = ∅) {launches : List Launch}
    (started : launches ∈ runCodeSync username servers clients partitions names)
    (launched : D.Launched launches) : Installed D (fileEdges text) db' := by
  have holds := filled.holds
  have keys := reads.keys_eq holds
  have plain : ∀ e ∈ fileEdges text, e.1 ≠ e.2 := fun e member => (file.plain e member).1.2
  have sorted : D.keys.Pairwise (· < ·) := by
    rw [keys]
    exact nodesOf_sorted _
  have divided := dispatched_partitions file.nonempty file.small username distinct present few
    listed named started launched
  have aligned := holds.aligned reads divided file.dense
  rw [← keys] at divided
  refine ⟨holds, plain, reads, holds.sane plain reads divided, ?_, ?_, ?_⟩
  · exact holds.wellposed reads outside divided aligned
      fun c t => Or.inl (Subsingleton.elim t (D.server c))
  · intro c u owns
    have member := ((Deployment.owns_iff sorted).mp owns).1
    simp [Deployment.loaded, member]
  · refine loads.represents_loaded empty (fun e member => (file.plain e member).1.1) fun v => ?_
    rw [keys, mem_nodesOf holds.range]

section Verdict

variable {edges : List (ℤ × ℤ)} {db : Db} {s : State k 1}

/-- The database behind the server after a run. -/
theorem Installed.represents_run (installed : Installed D edges db)
    (run : Reaches D.step (D.start D.loaded) s) :
    Represents (afterSets db (s.net.log 0)) (s.net.store 0) := by
  rw [store_eq_overlay installed.sane.valid run]
  exact installed.represents.afterSets _

/-- A complete run leaves a database in which the checker finds no error. -/
theorem Installed.checked (installed : Installed D edges db)
    (run : Reaches D.step (D.start D.loaded) s) (finished : ∀ c, (s.loc c).pc = .finished)
    {client : CheckColor.RedisClient} {decode : Text → Option Text}
    (serves : client.Serves (afterSets db (s.net.log 0)) decode) :
    CheckColor.isColoringValid client = some (0, (CheckColor.nodes edges).card) := by
  have holds := installed.holds
  have range : ∀ e ∈ edges, IntEdge e := fun e member => (holds.range e member).1
  have represents := installed.represents_run run
  have color : ∀ v, Mentioned edges v → ∃ n : ℕ, v = n ∧ afterSets db (s.net.log 0) (colorKey v) =
      (s.net.store 0 (.color n)).map fun x => .string (decimal x) := by
    intro v mentioned
    have inInt := mentioned.inInt range
    obtain ⟨n, rfl⟩ : ∃ n : ℕ, v = n := by
      obtain ⟨u, edge | edge⟩ := mentioned
      · exact Int.eq_ofNat_of_zero_le (holds.range _ edge).2.2
      · exact Int.eq_ofNat_of_zero_le (holds.range _ edge).2.1
    refine ⟨n, rfl, ?_⟩
    rw [← represents (.color n)]
    exact congrArg _ (colorKey_eq inInt)
  have readable : ∀ v, Mentioned edges v →
      CheckColor.Readable (afterSets db (s.net.log 0)) decode (colorKey v) := by
    intro v mentioned obj found
    obtain ⟨n, _, value⟩ := color v mentioned
    rw [value] at found
    obtain ⟨x, _, same⟩ := Option.map_eq_some_iff.mp found
    refine ⟨_, same.symm, ?_⟩
    rw [serves.ascii _ (CheckColor.ascii_decimal x)]
    exact Option.some_ne_none _
  have proper : ∀ u v, Joined edges u v → afterSets db (s.net.log 0) (colorKey u) ≠
      afterSets db (s.net.log 0) (colorKey v) := by
    intro u v joined same
    obtain ⟨m, eqU, valueU⟩ := color u ⟨v, joined.symm⟩
    obtain ⟨n, eqV, valueV⟩ := color v ⟨u, joined⟩
    subst eqU eqV
    rw [valueU, valueV] at same
    have equal : s.net.store 0 (.color m) = s.net.store 0 (.color n) :=
      Option.map_injective (fun x y text => decimal_injective (Obj.string.inj text)) same
    have serial := serial_of_one_server installed.posed installed.colors (fun _ => rfl) run
    have apart : m ≠ n := fun here =>
      CheckColor.apart_of_joined installed.plain joined (congrArg Nat.cast here)
    have member : n ∈ D.keys := by
      rw [installed.reads.keys_eq holds, mem_nodesOf holds.range]
      exact ⟨m, joined⟩
    exact serial.proper installed.posed finished 0
      ((installed.reads.mem_nbrs holds member).mpr joined) apart equal
  rw [CheckColor.isColoringValid_conflicts (holds.toHoldsGraph.afterSets _) range readable
    installed.plain serves, (CheckColor.card_conflicts_eq_zero _ installed.plain).mpr proper]

end Verdict

/-- A file is loaded into an empty server and the scripts start the clients on it. Every
fair run of them ends, and from then on the checker reports no error among all the nodes. -/
theorem experiment_checks_out (copy : Copy) (files : Text → Option Text)
    (command name : StringObj) (args : List StringObj) {text : Text} (found : copy.Finds name)
    (opened : files name.text = some text) (file : EdgeFile text) (s : Loading)
    (empty : ∀ key, s.db key = none) (username : Text)
    (servers clients partitions names : List Text) (distinct : clients.Nodup)
    (present : clients ≠ []) (few : clients.length < 2 ^ 63)
    (listed : partitions.Perm
      ((getPartition 0 ((nodesOf (fileEdges text)).length - 1) clients.length).map Prod.snd))
    (named : ∀ map ∈ generateMap username clients, names.Perm (map.map Prod.fst)) :
    ∃ s', s.addGraphCommand copy files (command :: name :: args) = some s' ∧
      ∀ (k : ℕ) (D : Deployment k 1), D.Reads s'.db → (∀ v, v ∉ D.keys → D.nbrs v = ∅) →
        (∃ launches ∈ runCodeSync username servers clients partitions names,
          D.Launched launches) →
        ∀ trace : Trace D.step, trace.state 0 = D.start D.loaded → Fair D trace →
          ∃ n, ∀ m, n ≤ m → (∀ c, ((trace.state m).loc c).pc = .finished) ∧
            Represents (afterSets s'.db ((trace.state m).net.log 0))
              ((trace.state m).net.store 0) ∧
            ∀ (client : CheckColor.RedisClient) (decode : Text → Option Text),
              client.Serves (afterSets s'.db ((trace.state m).net.log 0)) decode →
              CheckColor.isColoringValid client =
                some (0, (CheckColor.nodes (fileEdges text)).card) := by
  obtain ⟨s', done, loads, filled⟩ := exists_filled copy files command name args found opened
    file.short file.plain s empty
  refine ⟨s', done, ?_⟩
  rintro k D reads outside ⟨launches, started, launched⟩ trace start fair
  have installed := file.installed empty loads filled username distinct present few listed named
    reads outside started launched
  have lowered : ∀ ids v, D.loaded (.flag ids v) ≠ some 1 := by
    intro ids v
    simp [Deployment.loaded]
  obtain ⟨n, ends⟩ := fair.exists_end installed.sane
    (live_of_start installed.sane lowered start)
  refine ⟨n, fun m later => ?_⟩
  have run := trace.reaches (Nat.zero_le m)
  rw [start] at run
  have finished := (ends m later).1
  exact ⟨finished, installed.represents_run run, fun _ _ serves =>
    installed.checked run finished serves⟩

/-- The path on three nodes, with the positions 0 and 1 for one client and 2 for another. -/
def pathClients : Deployment 2 1 where
  nbrs := nbrsOf [(0, 1), (1, 2)]
  keys := [0, 1, 2]
  firstNode c := if c.val = 0 then 0 else 2
  lastNode c := if c.val = 0 then 1 else 2
  server _ := ⟨0, Nat.one_pos⟩
  required := 0
  plain := 0
  order := .sync

theorem pathClients_launched : ∃ launches ∈ runCodeSync "u".toList ["s".toList]
    ["a".toList, "b".toList] ["0,1".toList, "2,2".toList] ["a".toList, "b".toList],
    pathClients.Launched launches := by
  refine ⟨_, rfl, rfl, ?_⟩
  intro c
  rcases (show c = 0 ∨ c = 1 by omega) with rfl | rfl
  · exact ⟨_, rfl, by decide, by decide⟩
  · exact ⟨_, rfl, by decide, by decide⟩

theorem path_edgeFile : EdgeFile "0,1\n1,2\n".toList where
  short := by decide
  plain := by
    rw [show fileEdges "0,1\n1,2\n".toList = [(0, 1), (1, 2)] by decide]
    simp [PlainEdge, IntEdge, InInt]
  dense := by
    rw [show fileEdges "0,1\n1,2\n".toList = [(0, 1), (1, 2)] by decide]
    intro u v _ _ bound w less
    have three : (nodesOf [(0, 1), (1, 2)]).length = 3 := by decide
    rw [three] at bound
    have cases : w = 0 ∨ w = 1 := by omega
    rcases cases with rfl | rfl
    · exact ⟨1, Or.inr (by decide)⟩
    · exact ⟨0, Or.inl (by decide)⟩
  nonempty := by decide
  small := by decide

/-- The path is loaded, and a fair run of its two clients ends without an error. -/
theorem experiment_path : ∃ (db : Db) (trace : Trace pathClients.step),
    trace.state 0 = pathClients.start pathClients.loaded ∧ Fair pathClients trace ∧
    ∃ n, ∀ m, n ≤ m → (∀ c, ((trace.state m).loc c).pc = .finished) ∧
      (∃ client : CheckColor.RedisClient,
        client.Serves (afterSets db ((trace.state m).net.log 0)) CheckColor.decodeAscii) ∧
      ∀ client : CheckColor.RedisClient,
        client.Serves (afterSets db ((trace.state m).net.log 0)) CheckColor.decodeAscii →
        CheckColor.isColoringValid client = some (0, 3) := by
  have three : (CheckColor.nodes (fileEdges "0,1\n1,2\n".toList)).card = 3 := by decide
  obtain ⟨s', done, runs⟩ := experiment_checks_out .keydb (fun _ => some "0,1\n1,2\n".toList)
    (createStringObject "add_graph".toList) (createStringObject (List.replicate 60 'g')) []
    (.inr rfl) rfl path_edgeFile ⟨fun _ => none, [], 0⟩ (fun _ => rfl)
    "u".toList ["s".toList] ["a".toList, "b".toList] ["0,1".toList, "2,2".toList]
    ["a".toList, "b".toList] (by decide) (by decide) (by decide) (by decide) (by decide)
  obtain ⟨s'', done', _, filled⟩ := exists_filled_edges .keydb "0,1\n1,2\n".toList
    [(0, 1), (1, 2)] (by decide) path_edgeFile.short (by simp [PlainEdge, IntEdge, InInt])
  rw [Option.some.inj (done'.symm.trans done)] at filled
  have holds := filled.holds
  have nodes : pathClients.keys = nodesOf [(0, 1), (1, 2)] := by decide
  have reads := holds.reads nodes rfl
  have outside : ∀ v, v ∉ pathClients.keys → pathClients.nbrs v = ∅ := by
    intro v missing
    refine Finset.eq_empty_of_forall_notMem fun u member => missing ?_
    rw [nodes, mem_nodesOf holds.range]
    exact ⟨u, (holds.mem_nbrsOf u v).mp member⟩
  obtain ⟨launches, started, launched⟩ := pathClients_launched
  have divided : pathClients.Partitions 3 := dispatched_partitions (by decide) (by decide)
    "u".toList (by decide) (by decide) (by decide) (by decide) (by decide) started launched
  have sane := holds.sane (by simp) reads divided
  have lowered : ∀ ids v, pathClients.loaded (.flag ids v) ≠ some 1 := by
    intro ids v
    simp [Deployment.loaded]
  obtain ⟨trace, start, fair⟩ := exists_fair sane (fun inLoop =>
    ⟨if inLoop then .turnVar else .otherFlag, by cases inLoop <;> rfl⟩) (by decide) lowered
  obtain ⟨n, ends⟩ := runs 2 pathClients reads outside ⟨launches, started, launched⟩ trace start
    fair
  rw [three] at ends
  refine ⟨s'.db, trace, start, fair, n, fun m later => ⟨(ends m later).1, ?_, fun client =>
    (ends m later).2.2 client _⟩⟩
  have held : HoldsNatGraph [(0, 1), (1, 2)] (afterSets s'.db ((trace.state m).net.log 0)) :=
    ⟨holds.toHoldsGraph.afterSets _, holds.range⟩
  exact CheckColor.exists_serves _ held.isKeys

end DistributedColoring

import DistributedColoring.FrozenColors

set_option autoImplicit false

/- Runs as a whole: the colours left by clients that have all finished are those of
the sequential greedy algorithm. -/
namespace DistributedColoring

open GreedyColoring
open ReplicatedLog

variable {k N : ℕ} {D : Deployment k N}

theorem start_not_reading (c : Fin k) :
    (D.client c).start.colors = [] ∧ ∀ u, (D.client c).start.pc ≠ .getNodeColor u := by
  have started := processAt_started (D.client c) (D.client c).firstNode
  unfold Client.start
  split
  · simp
  · generalize (D.client c).processAt (D.client c).firstNode = l at started ⊢
    cases started <;> simp

theorem start_serial {store : Key → Option ℤ}
    (colors : ∀ c u, D.Owns c u → store (.color u) = some 0) : Serial D (D.start store) where
  sound := start_sound store
  recorded := start_recorded store
  edges := fun c d L _ => start_edgeSafe store c d L
  frozen := by
    intro c u _ read
    obtain ⟨empty, notHere⟩ := start_not_reading (D := D) c
    rcases read with visited | here
    · change u ∈ (D.client c).start.colors.map Prod.fst at visited
      simp [empty] at visited
    · exact absurd here (notHere u)
  read := by
    intro c u x _ member
    change (u, x) ∈ (D.client c).start.colors at member
    simp [(start_not_reading (D := D) c).1] at member
  settled := fun u t _ => Net.not_inFlight_start _ t _
  untouched := fun u o x _ member => List.not_mem_nil member
  home := colors

/-- When every client has finished, every server holds the sequential colouring. -/
theorem Serial.final {s : State k N} (serial : Serial D s)
    (finished : ∀ c, (s.loc c).pc = .finished) :
    (∀ v, v ∈ s.history ↔ ∃ c, D.Owns c v) ∧
      ∀ c v t, D.Owns c v → s.net.store t (.color v) = some (greedy D.nbrs s.history v) := by
  have all : ∀ v, v ∈ s.history ↔ ∃ c, D.Owns c v := by
    intro v
    rw [serial.recorded.mem v]
    constructor
    · intro ⟨c, processed⟩
      exact ⟨c, processed.owns (serial.sound.shape c)⟩
    · intro ⟨c, j, low, high, key⟩
      refine ⟨c, j, low, key, Or.inl ?_⟩
      rcases (serial.sound.shape c).finished (finished c) with empty | past
      · simp [Client.keyAt, Deployment.client, empty] at key
      · omega
  refine ⟨all, ?_⟩
  intro c v t owns
  have done : Done s v := by
    refine ⟨(all v).mpr ⟨c, owns⟩, fun d x _ sent => ?_⟩
    simp [Pc.Sent, finished d] at sent
  rw [(serial.sound.tracks c (.color v) v owns rfl).agree t (serial.settled v t done)]
  exact serial.home c v owns

/-- The ends of an edge differ on every server. -/
theorem Serial.proper {s : State k N} (serial : Serial D s) (posed : D.Wellposed)
    (finished : ∀ c, (s.loc c).pc = .finished) (t : Fin N) {u v : ℕ} (adjacent : u ∈ D.nbrs v)
    (apart : u ≠ v) : s.net.store t (.color u) ≠ s.net.store t (.color v) := by
  obtain ⟨all, colors⟩ := serial.final finished
  obtain ⟨c, ownsU⟩ := posed.owned u v adjacent
  obtain ⟨d, ownsV⟩ := posed.owned v u (posed.symmetric u v adjacent)
  rw [colors c u t ownsU, colors d v t ownsV]
  intro same
  exact greedy_proper D.nbrs posed.symmetric s.history serial.recorded.nodup
    ((all u).mpr ⟨c, ownsU⟩) ((all v).mpr ⟨d, ownsV⟩) adjacent apart (Option.some.inj same)

/-- Servers on which a status is set only for nodes whose colour is final. -/
structure Stamped (s : State k N) : Prop where
  stored : ∀ t u x, s.net.store t (.status u) = some x → Done s u
  logged : ∀ o u x, (.status u, x) ∈ s.net.log o → Done s u

theorem write_of_status {w : Write} {v u : ℕ} (same : (w.command v).1 = .status u) :
    w = .status ∧ v = u := by
  cases w with
  | status =>
      injection same with nodes
      exact ⟨rfl, nodes⟩
  | flag lock => cases same
  | turn lock => cases same
  | color x => cases same
  | release lock => cases same

/-- The status is sent after the colour has been acknowledged. -/
theorem done_of_status {s : State k N} (valid : D.Valid) (sound : Sound D s)
    (recorded : Recorded D s) {c : Fin k} {again : Bool}
    (pc : (s.loc c).pc = .set .status again) : Done s (s.loc c).node := by
  refine ⟨recorded.mem_of_colored sound (by rw [pc]; trivial), ?_⟩
  intro d x node sent
  have activeD : (s.loc d).pc.Active := by
    rcases sent with pc | pc <;> simp [pc, Pc.Active]
  have ownsD := (sound.shape d).owns activeD
  rw [node] at ownsD
  have client := valid.owner_unique ownsD ((sound.shape c).owns (by simp [pc, Pc.Active]))
  subst client
  simp [Pc.Sent, pc] at sent

theorem Stamped.step {s s' : State k N} {a : Action k N} (stamped : Stamped s) (valid : D.Valid)
    (sound : Sound D s) (recorded : Recorded D s) (taken : StepCase D s a s') : Stamped s' := by
  have lift : ∀ u, Done s u → Done s' u := fun u done => done.step valid sound recorded taken
  cases taken with
  | quiet c move l' quiet =>
      exact ⟨fun t u x stored => lift u (stamped.stored t u x stored),
        fun o u x logged => lift u (stamped.logged o u x logged)⟩
  | send c w again pc =>
      have new : ∀ u, (w.command (s.loc c).node).1 = .status u → Done s u := by
        intro u same
        obtain ⟨write, node⟩ := write_of_status same
        subst write node
        exact done_of_status valid sound recorded pc
      constructor
      · intro t u x stored
        apply lift
        by_cases same : Key.status u = (w.command (s.loc c).node).1
        · exact new u same.symm
        · rw [put_net, send_net, Net.write_store_other_key _ _ _ _ same] at stored
          exact stamped.stored t u x stored
      · intro o u x member
        apply lift
        rcases (Net.mem_write_log _ _ _ _ _ _).mp member with old | ⟨_, entry⟩
        · exact stamped.logged o u x old
        · exact new u (congrArg Prod.fst entry).symm
  | deliver r o key v front =>
      refine ⟨?_, fun o u x logged => lift u (stamped.logged o u x logged)⟩
      intro t u x stored
      apply lift
      by_cases same : Key.status u = key
      · subst same
        exact stamped.logged o u v (Net.mem_log_of_front front)
      · change (s.net.replay r o key v).store t (.status u) = some x at stored
        rw [Net.replay_store_other_key _ _ _ _ _ same] at stored
        exact stamped.stored t u x stored

theorem Stamped.statusFresh {s : State k N} (stamped : Stamped s) (a : Action k N) :
    D.StatusFresh s a := by
  unfold Deployment.StatusFresh
  split
  · rename_i c
    split
    · rename_i u pc
      intro set
      cases stored : s.net.store (D.server c) (.status u) with
      | none => simp [State.get, stored, Reply.stored, getStatus] at set
      | some x => exact (stamped.stored _ u x stored).mono fun _ impossible => impossible.elim
    · trivial
  · trivial

/-- From freshly loaded servers no status is left from an earlier run, so a run
needs only the condition on the announcements. -/
theorem serial_of_run (posed : D.Wellposed) {store : Key → Option ℤ}
    (colors : ∀ c u, D.Owns c u → store (.color u) = some 0)
    (statuses : ∀ u, store (.status u) = none) {s : State k N}
    (run : GuardedRun.Run D.step D.TurnClear (D.start store) s) : Serial D s := by
  have invariant : Serial D s ∧ Stamped s := by
    apply run.invariant (P := fun x => Serial D x ∧ Stamped x)
    · refine ⟨start_serial colors, ?_, fun o u x member => absurd member List.not_mem_nil⟩
      intro t u x stored
      change store (.status u) = some x at stored
      rw [statuses u] at stored
      cases stored
    · intro x a y both clear taken
      obtain ⟨serial, stamped⟩ := both
      have cases := step_cases taken
      exact ⟨serial.step posed cases clear (stamped.statusFresh a),
        stamped.step posed.valid serial.sound serial.recorded cases⟩
  exact invariant.1

namespace Deployment

/-- A graph on the nodes `0 .. n - 1`, divided among the clients. -/
structure Divides (D : Deployment k N) (n : ℕ) : Prop where
  keys : D.keys = List.range n
  inside : ∀ u v, u ∈ D.nbrs v → u < n ∧ v < n
  symmetric : ∀ u v, u ∈ D.nbrs v → v ∈ D.nbrs u
  bounds : ∀ c i, D.firstNode c ≤ i → i ≤ D.lastNode c → 0 ≤ i ∧ i < n
  cover : ∀ i : ℤ, 0 ≤ i → i < n → ∃ c, D.firstNode c ≤ i ∧ i ≤ D.lastNode c
  disjoint : ∀ c d i, D.firstNode c ≤ i → i ≤ D.lastNode c → D.firstNode d ≤ i →
    i ≤ D.lastNode d → c = d

theorem Divides.valid {n : ℕ} (divides : D.Divides n) : D.Valid :=
  ⟨divides.keys ▸ List.nodup_range, divides.disjoint⟩

theorem Divides.keyAt {n : ℕ} (divides : D.Divides n) (c : Fin k) {v : ℕ} (bound : v < n) :
    (D.client c).keyAt v = some v := by
  have inside : (D.client c).keys = List.range n := divides.keys
  unfold Client.keyAt
  rw [if_pos (Int.natCast_nonneg v), inside, Int.toNat_natCast, List.getElem?_range bound]

/-- Positions are ids here, so a client has the nodes of its range. -/
theorem Divides.owns {n : ℕ} (divides : D.Divides n) {c : Fin k} {v : ℕ}
    (low : D.firstNode c ≤ v) (high : (v : ℤ) ≤ D.lastNode c) : D.Owns c v := by
  have bound := (divides.bounds c v low high).2
  exact ⟨v, low, high, divides.keyAt c (by omega)⟩

theorem Divides.exists_owns {n : ℕ} (divides : D.Divides n) (v : ℕ) :
    (∃ c, D.Owns c v) ↔ v < n := by
  constructor
  · intro ⟨c, i, low, high, key⟩
    obtain ⟨nonneg, bound⟩ := divides.bounds c i low high
    have same := divides.keyAt c (v := i.toNat) (by omega)
    rw [Int.toNat_of_nonneg nonneg, key] at same
    have := Option.some.inj same
    omega
  · intro bound
    obtain ⟨c, low, high⟩ := divides.cover v (Int.natCast_nonneg v) (by omega)
    exact ⟨c, divides.owns low high⟩

theorem Divides.wellposed {n : ℕ} (divides : D.Divides n) (reaches : ∀ c t, D.Reaches c t) :
    D.Wellposed where
  valid := divides.valid
  symmetric := divides.symmetric
  owned := fun u v adjacent => (divides.exists_owns u).mpr (divides.inside u v adjacent).1
  aligned := fun _ _ _ _ _ range => divides.owns range.1 range.2
  reaches := reaches

theorem Divides.loaded_color {n : ℕ} (divides : D.Divides n) (c : Fin k) (u : ℕ)
    (owns : D.Owns c u) : D.loaded (.color u) = some 0 := by
  have bound := (divides.exists_owns u).mp ⟨c, owns⟩
  simp [loaded, divides.keys, bound]

end Deployment

theorem turnClear_of_one_server {D : Deployment k 1} {s : State k 1} (wf : s.net.WellFormed)
    (a : Action k 1) : D.TurnClear s a := by
  unfold Deployment.TurnClear
  split
  · split
    · exact wf.not_inFlight_of_subsingleton _ _
    · trivial
  · trivial

/-- Announcements cannot cross on one server. -/
theorem serial_of_one_server {D : Deployment k 1} (posed : D.Wellposed) {store : Key → Option ℤ}
    (colors : ∀ c u, D.Owns c u → store (.color u) = some 0)
    (statuses : ∀ u, store (.status u) = none) {s : State k 1}
    (run : GuardedRun.Reaches D.step (D.start store) s) : Serial D s := by
  apply serial_of_run posed colors statuses
  apply run.strengthen (P := Sound D) (start_sound store)
  · intro x a y sound _ taken
    exact sound.step posed.valid (step_cases taken)
  · intro x a y sound _ _
    exact turnClear_of_one_server sound.wf a

/-- On one server every complete run leaves the colours of the sequential greedy
algorithm over the nodes in the order of their first colour SET. -/
theorem one_server_serializable {n : ℕ} (D : Deployment k 1) (divides : D.Divides n)
    {s : State k 1} (run : GuardedRun.Reaches D.step (D.start D.loaded) s)
    (finished : ∀ c, (s.loc c).pc = .finished) :
    s.history.Perm (List.range n) ∧
      (∀ v < n, s.net.store 0 (.color v) = some (greedy D.nbrs s.history v)) ∧
      ∀ u v, u ∈ D.nbrs v → u ≠ v → s.net.store 0 (.color u) ≠ s.net.store 0 (.color v) := by
  have posed := divides.wellposed fun c t => Or.inl (Subsingleton.elim t (D.server c))
  have serial := serial_of_one_server posed divides.loaded_color (fun _ => rfl) run
  obtain ⟨all, colors⟩ := serial.final finished
  refine ⟨?_, ?_, fun u v => serial.proper posed finished 0⟩
  · apply (List.perm_ext_iff_of_nodup serial.recorded.nodup List.nodup_range).mpr
    intro v
    rw [all v, divides.exists_owns v, List.mem_range]
  · intro v bound
    obtain ⟨c, owns⟩ := (divides.exists_owns v).mpr bound
    exact colors c v 0 owns

theorem oneEdge_divides (server : Fin 2 → Fin N) (required : ℕ) :
    (oneEdge server required).Divides 2 where
  keys := rfl
  inside := by
    intro u v adjacent
    simp only [oneEdge] at adjacent
    split at adjacent
    · simp only [Finset.mem_singleton] at adjacent
      omega
    · split at adjacent
      · simp only [Finset.mem_singleton] at adjacent
        omega
      · cases adjacent
  symmetric := by
    intro u v adjacent
    simp only [oneEdge] at adjacent ⊢
    split at adjacent
    · simp_all
    · split at adjacent <;> simp_all
  bounds := by
    intro c i low high
    simp only [oneEdge] at low high
    omega
  cover := by
    intro i low high
    simp only [oneEdge]
    exact ⟨⟨i.toNat, by omega⟩, by simp [low], by simp [low]⟩
  disjoint := (oneEdge_valid server required).disjoint

/-- Both clients compete for the edge, and client 1 finishes second. -/
theorem oneEdge_serializable :
    ∃ s, GuardedRun.Reaches (oneEdge (fun _ => (0 : Fin 1)) 0).step
        ((oneEdge (fun _ => (0 : Fin 1)) 0).start (oneEdge (fun _ => (0 : Fin 1)) 0).loaded) s ∧
      (∀ c, (s.loc c).pc = .finished) ∧ s.history.Perm (List.range 2) ∧
      (∀ v < 2, s.net.store 0 (.color v) =
        some (greedy (oneEdge (fun _ => (0 : Fin 1)) 0).nbrs s.history v)) ∧
      ∀ u v, u ∈ (oneEdge (fun _ => (0 : Fin 1)) 0).nbrs v → u ≠ v →
        s.net.store 0 (.color u) ≠ s.net.store 0 (.color v) := by
  obtain ⟨s, run, finished⟩ := GuardedRun.exists_run_of_exec
    (oneEdge (fun _ => (0 : Fin 1)) 0).step (fun _ _ => True)
    ((oneEdge (fun _ => (0 : Fin 1)) 0).start (oneEdge (fun _ => (0 : Fin 1)) 0).loaded)
    (fun s => ∀ c, (s.loc c).pc = .finished)
    [.client 0 (.smembers [1]), .client 0 (.smembers [1]), .client 0 .get,
      .client 1 (.smembers [0]), .client 1 (.smembers [0]), .client 1 .get,
      .client 0 .set, .client 1 .set, .client 0 (.wait 0), .client 1 (.wait 0),
      .client 0 .set, .client 1 .set, .client 0 (.wait 0), .client 1 (.wait 0),
      .client 1 (.lockGet .otherFlag), .client 0 (.lockGet .otherFlag),
      .client 1 (.lockGet .turnVar), .client 0 (.lockGet .turnVar),
      .client 0 .get, .client 0 .set, .client 0 (.wait 0), .client 0 .set, .client 0 (.wait 0),
      .client 0 .set, .client 0 (.wait 0),
      .client 1 (.lockGet .turnVar), .client 1 (.lockGet .otherFlag),
      .client 1 .get, .client 1 .set, .client 1 (.wait 0), .client 1 .set, .client 1 (.wait 0),
      .client 1 .set, .client 1 (.wait 0)] (by decide +kernel)
  exact ⟨s, run, finished, one_server_serializable _ (oneEdge_divides _ _) run finished⟩

end DistributedColoring

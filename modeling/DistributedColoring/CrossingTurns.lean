import DistributedColoring.Serializability

set_option autoImplicit false

/- Several servers. Two announcements of one turn that cross each other leave each
server with the other client's name, and both clients pass their spin loops. -/
namespace DistributedColoring

open ReplicatedLog

variable {k N : ℕ}

instance (n : Net (Fin N) Key ℤ) (t : Fin N) (key : Key) : Decidable (n.InFlight t key) :=
  decidable_of_iff (∃ o, ((n.log o).drop (n.seen t o)).any fun entry => entry.1 = key) <| by
    simp only [List.any_eq_true, decide_eq_true_eq, Prod.exists, Net.InFlight]
    constructor
    · intro ⟨o, a, v, member, same⟩
      exact ⟨o, v, same ▸ member⟩
    · intro ⟨o, v, member⟩
      exact ⟨o, key, v, member, rfl⟩

instance (D : Deployment k N) (s : State k N) (a : Action k N) : Decidable (D.TurnClear s a) := by
  unfold Deployment.TurnClear
  split
  · split <;> infer_instance
  · infer_instance

/-- With one acknowledgement from every other server, runs in which no two
announcements of a turn cross leave no edge with two equal ends, on any server. -/
theorem mesh_proper_of_turnClear {n : ℕ} (D : Deployment k N) (divides : D.Divides n)
    (plain : D.plain = 0) (required : D.required = N - 1) {s : State k N}
    (run : GuardedRun.Run D.step D.TurnClear (D.start D.loaded) s)
    (finished : ∀ c, (s.loc c).pc = .finished) (t : Fin N) {u v : ℕ} (adjacent : u ∈ D.nbrs v)
    (apart : u ≠ v) : s.net.store t (.color u) ≠ s.net.store t (.color v) := by
  have covers : D.Covers := by
    unfold Deployment.Covers
    omega
  have posed := divides.wellposed fun c t => Or.inr covers
  have serial := serial_of_run posed divides.loaded_color (fun _ => rfl) run
  exact serial.proper posed finished t adjacent apart

/-- Two servers, one client at each: one after the other they colour the edge. -/
theorem oneEdge_mesh_proper :
    ∃ s, GuardedRun.Run (oneEdge (id : Fin 2 → Fin 2) 1).step
        (oneEdge (id : Fin 2 → Fin 2) 1).TurnClear
        ((oneEdge (id : Fin 2 → Fin 2) 1).start (oneEdge (id : Fin 2 → Fin 2) 1).loaded) s ∧
      (∀ c, (s.loc c).pc = .finished) ∧
      ∀ t : Fin 2, s.net.store t (.color 0) ≠ s.net.store t (.color 1) := by
  obtain ⟨s, run, finished⟩ := GuardedRun.exists_run_of_exec
    (oneEdge (id : Fin 2 → Fin 2) 1).step (oneEdge (id : Fin 2 → Fin 2) 1).TurnClear
    ((oneEdge (id : Fin 2 → Fin 2) 1).start (oneEdge (id : Fin 2 → Fin 2) 1).loaded)
    (fun s => ∀ c, (s.loc c).pc = .finished)
    [.client 0 (.smembers [1]), .client 0 (.smembers [1]), .client 0 .get,
      .client 0 .set, .deliver 1 0, .client 0 (.wait 1),
      .client 0 .set, .deliver 1 0, .client 0 (.wait 1),
      .client 0 (.lockGet .otherFlag), .client 0 (.lockGet .turnVar), .client 0 .get,
      .client 0 .set, .deliver 1 0, .client 0 (.wait 1),
      .client 0 .set, .deliver 1 0, .client 0 (.wait 1),
      .client 0 .set, .deliver 1 0, .client 0 (.wait 1),
      .client 1 (.smembers [0]), .client 1 (.smembers [0]), .client 1 .get, .client 1 .get,
      .client 1 .set, .deliver 0 1, .client 1 (.wait 1),
      .client 1 .set, .deliver 0 1, .client 1 (.wait 1)] (by decide +kernel)
  refine ⟨s, run, finished, fun t => ?_⟩
  exact mesh_proper_of_turnClear _ (oneEdge_divides _ _) rfl rfl run finished t (by decide)
    (by decide)

/-- With crossing announcements both clients read colour 0 and send colour 1, and
the servers agree on it once everything is delivered. -/
theorem crossing_turns_monochromatic :
    ∃ s, GuardedRun.Reaches (oneEdge (id : Fin 2 → Fin 2) 1).step
        ((oneEdge (id : Fin 2 → Fin 2) 1).start (oneEdge (id : Fin 2 → Fin 2) 1).loaded) s ∧
      (∀ c, (s.loc c).pc = .finished) ∧
      (∀ t o, s.net.seen t o = (s.net.log o).length) ∧
      1 ∈ (oneEdge (id : Fin 2 → Fin 2) 1).nbrs 0 ∧
      ∀ t, s.net.store t (.color 0) = some 1 ∧ s.net.store t (.color 1) = some 1 := by
  obtain ⟨s, run, finished, delivered, colors⟩ := GuardedRun.exists_run_of_exec
    (oneEdge (id : Fin 2 → Fin 2) 1).step (fun _ _ => True)
    ((oneEdge (id : Fin 2 → Fin 2) 1).start (oneEdge (id : Fin 2 → Fin 2) 1).loaded)
    (fun s => (∀ c, (s.loc c).pc = .finished) ∧
      (∀ t o, s.net.seen t o = (s.net.log o).length) ∧
      ∀ t, s.net.store t (.color 0) = some 1 ∧ s.net.store t (.color 1) = some 1)
    [.client 0 (.smembers [1]), .client 0 (.smembers [1]), .client 0 .get,
      .client 1 (.smembers [0]), .client 1 (.smembers [0]), .client 1 .get,
      .client 0 .set, .client 1 .set, .deliver 1 0, .deliver 0 1,
      .client 0 (.wait 1), .client 1 (.wait 1),
      .client 0 .set, .client 1 .set, .deliver 1 0, .deliver 0 1,
      .client 0 (.wait 1), .client 1 (.wait 1),
      .client 0 (.lockGet .otherFlag), .client 0 (.lockGet .turnVar),
      .client 1 (.lockGet .otherFlag), .client 1 (.lockGet .turnVar),
      .client 0 .get, .client 1 .get,
      .client 0 .set, .client 1 .set, .deliver 1 0, .deliver 0 1,
      .client 0 (.wait 1), .client 1 (.wait 1),
      .client 0 .set, .client 1 .set, .deliver 1 0, .deliver 0 1,
      .client 0 (.wait 1), .client 1 (.wait 1),
      .client 0 .set, .client 1 .set, .deliver 1 0, .deliver 0 1,
      .client 0 (.wait 1), .client 1 (.wait 1)] (by decide +kernel)
  exact ⟨s, run, finished, delivered, by decide, colors⟩

end DistributedColoring

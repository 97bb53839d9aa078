import DistributedColoring.AddGraph
import DistributedColoring.Serializability
import Mathlib.Logic.Relation

set_option autoImplicit false

/- Loading the graph again resets the colours and nothing else. A status left from an
earlier run lets a client pass a lock whose edge is not coloured yet. -/
namespace DistributedColoring

open CText
open GuardedRun

variable {k : ℕ}

/-- What `add_graph` does to the keys of the clients. -/
def reload (nodes : List ℕ) (store : Key → Option ℤ) : Key → Option ℤ
  | .color v => if v ∈ nodes then some 0 else store (.color v)
  | key => store key

/-- The texts of the keys. -/
def Key.text : Key → Text
  | .color v => "node_".toList ++ (decimal v ++ "_color".toList)
  | .status v => "node_".toList ++ (decimal v ++ "_status".toList)
  | .flag bothId v => "flag_".toList ++
      (decimal bothId.1 ++ '_' :: (decimal bothId.2 ++ '_' :: decimal v))
  | .turn bothId => "turn_".toList ++ (decimal bothId.1 ++ '_' :: decimal bothId.2)

/-- The values under the keys of the clients are decimal texts. -/
def Represents (db : Db) (store : Key → Option ℤ) : Prop :=
  ∀ key, db (Key.text key) = (store key).map fun value => .string (decimal value)

theorem text_ne_nodeKey (key : Key) {v : ℤ} (range : InInt v) : key.text ≠ nodeKey v := by
  rw [nodeKey_eq range]
  cases key with
  | color u =>
      intro same
      exact absurd (decimal_append_inj (by decide) (List.append_cancel_left same)).2 (by decide)
  | status u =>
      intro same
      exact absurd (decimal_append_inj (by decide) (List.append_cancel_left same)).2 (by decide)
  | flag bothId u =>
      intro same
      have heads : some 'f' = some 'n' := congrArg List.head? same
      exact absurd heads (by decide)
  | turn bothId =>
      intro same
      have heads : some 't' = some 'n' := congrArg List.head? same
      exact absurd heads (by decide)

theorem text_eq_colorKey {key : Key} {v : ℤ} (range : InInt v) (same : key.text = colorKey v) :
    ∃ u : ℕ, key = .color u ∧ (u : ℤ) = v := by
  rw [colorKey_eq range] at same
  cases key with
  | color u => exact ⟨u, rfl, (decimal_append_inj (by decide) (List.append_cancel_left same)).1⟩
  | status u =>
      exact absurd (decimal_append_inj (by decide) (List.append_cancel_left same)).2 (by decide)
  | flag bothId u =>
      have heads : some 'f' = some 'n' := congrArg List.head? same
      exact absurd heads (by decide)
  | turn bothId =>
      have heads : some 't' = some 'n' := congrArg List.head? same
      exact absurd heads (by decide)

/-- `add_graph` acts on the keys of the clients as `reload` does. -/
theorem Loads.represents {edges : List (ℤ × ℤ)} {db db' : Db} (loads : Loads edges db db')
    (range : ∀ e ∈ edges, IntEdge e) {nodes : List ℕ}
    (mem : ∀ v : ℕ, v ∈ nodes ↔ Mentioned edges v) {store : Key → Option ℤ}
    (represents : Represents db store) : Represents db' (reload nodes store) := by
  intro key
  by_cases reset : ∃ v : ℕ, key = .color v ∧ v ∈ nodes
  · obtain ⟨v, rfl, member⟩ := reset
    have mentioned := (mem v).mp member
    have text : Key.text (.color v) = colorKey v := (colorKey_eq (mentioned.inInt range)).symm
    rw [text, loads.color v mentioned, reload, if_pos member]
    rfl
  · have kept : reload nodes store key = store key := by
      cases key with
      | color v => rw [reload, if_neg fun member => reset ⟨v, rfl, member⟩]
      | status v => rfl
      | flag bothId v => rfl
      | turn bothId => rfl
    rw [kept, ← represents key]
    apply loads.others
    intro v mentioned
    have inInt := mentioned.inInt range
    refine ⟨text_ne_nodeKey key inInt, fun same => ?_⟩
    obtain ⟨u, color, number⟩ := text_eq_colorKey inInt same
    refine reset ⟨u, color, (mem u).mpr ?_⟩
    rw [number]
    exact mentioned

/-- One `add_graph` of a graph on `0 .. n - 1` and one complete run on it, by any
number of clients. The steps of the run meet `ok`. -/
inductive Recolors (nbrs : ℕ → Finset ℕ) (n : ℕ)
    (ok : (k : ℕ) → Deployment k 1 → State k 1 → Action k 1 → Prop) (before : Key → Option ℤ) :
    (Key → Option ℤ) → Prop
  | intro {k : ℕ} (D : Deployment k 1) (s : State k 1) (graph : D.nbrs = nbrs)
      (divides : D.Divides n)
      (run : Run D.step (ok k D) (D.start (reload (List.range n) before)) s)
      (finished : ∀ c, (s.loc c).pc = .finished) : Recolors nbrs n ok before (s.net.store 0)

/-- A status other than zero is read only of a node that this run has coloured. -/
def Deployment.StatusCurrent (D : Deployment k 1) (s : State k 1) : Action k 1 → Prop
  | .client c .get =>
      match (s.loc c).pc with
      | .getStatus u => getStatus (s.get (D.server c) (.status u)) ≠ 0 → u ∈ s.history
      | _ => True
  | _ => True

instance (D : Deployment k 1) (s : State k 1) (a : Action k 1) :
    Decidable (D.StatusCurrent s a) := by
  unfold Deployment.StatusCurrent
  split
  · split <;> infer_instance
  · infer_instance

theorem Deployment.StatusCurrent.fresh {D : Deployment k 1} {s : State k 1} {a : Action k 1}
    (current : D.StatusCurrent s a) : D.StatusFresh s a := by
  unfold Deployment.StatusCurrent at current
  unfold Deployment.StatusFresh
  split
  · rename_i c
    simp only at current
    split
    · rename_i u pc
      rw [pc] at current
      intro set
      exact ⟨current set, fun d _ _ _ => Subsingleton.elim _ _⟩
    · trivial
  · trivial

/-- However often a graph is loaded and coloured, and whatever the server held before:
if no run reads a status of an earlier one, every run leaves a proper colouring. -/
theorem reloaded_runs_proper {nbrs : ℕ → Finset ℕ} {n : ℕ} {before after : Key → Option ℤ}
    (history : Relation.TransGen (Recolors nbrs n fun _ D => D.StatusCurrent) before after)
    {u v : ℕ} (adjacent : u ∈ nbrs v) (apart : u ≠ v) : after (.color u) ≠ after (.color v) := by
  obtain ⟨middle, last⟩ : ∃ middle, Recolors nbrs n (fun _ D => D.StatusCurrent) middle after := by
    cases history with
    | single only => exact ⟨before, only⟩
    | tail _ last => exact ⟨_, last⟩
  obtain @⟨k, D, s, graph, divides, run, finished⟩ := last
  have posed := divides.wellposed fun c t => Or.inl (Subsingleton.elim t (D.server c))
  have colors : ∀ c u, D.Owns c u → reload (List.range n) middle (.color u) = some 0 := by
    intro c u owns
    have bound := (divides.exists_owns u).mp ⟨c, owns⟩
    rw [reload, if_pos (List.mem_range.mpr bound)]
  have serial : Serial D s := by
    apply run.invariant (P := Serial D) (start_serial colors)
    intro x a y serial current taken
    exact serial.step posed (step_cases taken) (turnClear_of_one_server serial.sound.wf a)
      current.fresh
  exact serial.proper posed finished 0 (graph ▸ adjacent) apart

/-- The edge again, with both ends for one client. -/
def oneClient : Deployment 1 1 where
  nbrs := (oneEdge (id : Fin 2 → Fin 2) 0).nbrs
  keys := [0, 1]
  firstNode _ := 0
  lastNode _ := 1
  server := id
  required := 0
  plain := 0
  order := .sync

theorem oneClient_divides : oneClient.Divides 2 where
  keys := rfl
  inside := (oneEdge_divides (fun _ => (0 : Fin 1)) 0).inside
  symmetric := (oneEdge_divides (fun _ => (0 : Fin 1)) 0).symmetric
  bounds := by
    intro c i low high
    simp only [oneClient] at low high
    omega
  cover := by
    intro i low high
    refine ⟨0, low, ?_⟩
    simp only [oneClient]
    omega
  disjoint := fun c d _ _ _ _ _ => Subsingleton.elim c d

/-- Client 0 colours its end of the edge, then client 1 the other. -/
def oneByOne : List (Action 2 1) :=
  [.client 0 (.smembers [1]), .client 0 (.smembers [1]), .client 0 .get,
    .client 0 .set, .client 0 (.wait 0), .client 0 .set, .client 0 (.wait 0),
    .client 0 (.lockGet .otherFlag), .client 0 (.lockGet .turnVar), .client 0 .get,
    .client 0 .set, .client 0 (.wait 0), .client 0 .set, .client 0 (.wait 0),
    .client 0 .set, .client 0 (.wait 0),
    .client 1 (.smembers [0]), .client 1 (.smembers [0]), .client 1 .get, .client 1 .get,
    .client 1 .set, .client 1 (.wait 0), .client 1 .set, .client 1 (.wait 0)]

/-- Two clients colour the edge, then one client colours it anew. -/
theorem oneEdge_reloaded_proper : ∃ after, Relation.TransGen
      (Recolors (oneEdge (fun _ => (0 : Fin 1)) 0).nbrs 2 fun _ D => D.StatusCurrent)
      (fun _ => none) after ∧ after (.status 0) = some 1 ∧ after (.color 1) ≠ after (.color 0) := by
  obtain ⟨s, run, finished, next⟩ := exists_run_of_exec
    (oneEdge (fun _ => (0 : Fin 1)) 0).step (oneEdge (fun _ => (0 : Fin 1)) 0).StatusCurrent
    ((oneEdge (fun _ => (0 : Fin 1)) 0).start (reload (List.range 2) fun _ => none))
    (fun s => (∀ c, (s.loc c).pc = .finished) ∧
      (exec oneClient.step oneClient.StatusCurrent
        (oneClient.start (reload (List.range 2) (s.net.store 0)))
        [.client 0 (.smembers [1]), .client 0 (.smembers [1]), .client 0 .get,
          .client 0 .set, .client 0 (.wait 0), .client 0 .set, .client 0 (.wait 0),
          .client 0 (.smembers [0]), .client 0 (.smembers [0]), .client 0 .get,
          .client 0 .set, .client 0 (.wait 0), .client 0 .set, .client 0 (.wait 0)]).any
        (fun s => (∀ c, (s.loc c).pc = .finished) ∧ s.net.store 0 (.status 0) = some 1) = true)
    oneByOne (by decide +kernel)
  obtain ⟨s', run', finished', status⟩ := exists_run_of_exec _ _ _ _ _ next
  have history : Relation.TransGen (Recolors (oneEdge (fun _ => (0 : Fin 1)) 0).nbrs 2
      fun _ D => D.StatusCurrent) (fun _ => none) (s'.net.store 0) :=
    .tail (.single (.intro _ s rfl (oneEdge_divides _ _) run finished))
      (.intro _ s' rfl oneClient_divides run' finished')
  exact ⟨_, history, status, reloaded_runs_proper history (by decide) (by decide)⟩

/-- Two clients colour the edge. When they do so again, each finds the status of the
other node set, reads colour 0 without the lock and sends colour 1. -/
theorem stale_status_monochromatic : ∃ after, Relation.TransGen
      (Recolors (oneEdge (fun _ => (0 : Fin 1)) 0).nbrs 2 fun _ _ _ _ => True)
      (fun _ => none) after ∧ 1 ∈ (oneEdge (fun _ => (0 : Fin 1)) 0).nbrs 0 ∧
      after (.color 0) = some 1 ∧ after (.color 1) = some 1 := by
  obtain ⟨s, run, finished, next⟩ := exists_run_of_exec
    (oneEdge (fun _ => (0 : Fin 1)) 0).step (fun _ _ => True)
    ((oneEdge (fun _ => (0 : Fin 1)) 0).start (reload (List.range 2) fun _ => none))
    (fun s => (∀ c, (s.loc c).pc = .finished) ∧
      (exec (oneEdge (fun _ => (0 : Fin 1)) 0).step (fun _ _ => True)
        ((oneEdge (fun _ => (0 : Fin 1)) 0).start (reload (List.range 2) (s.net.store 0)))
        [.client 0 (.smembers [1]), .client 0 (.smembers [1]), .client 0 .get, .client 0 .get,
          .client 1 (.smembers [0]), .client 1 (.smembers [0]), .client 1 .get, .client 1 .get,
          .client 0 .set, .client 0 (.wait 0), .client 0 .set, .client 0 (.wait 0),
          .client 1 .set, .client 1 (.wait 0), .client 1 .set, .client 1 (.wait 0)]).any
        (fun s => (∀ c, (s.loc c).pc = .finished) ∧ s.net.store 0 (.color 0) = some 1 ∧
          s.net.store 0 (.color 1) = some 1) = true)
    oneByOne (by decide +kernel)
  obtain ⟨s', run', finished', colors⟩ := exists_run_of_exec _ _ _ _ _ next
  exact ⟨_, .tail (.single (.intro _ s rfl (oneEdge_divides _ _) run finished))
    (.intro _ s' rfl (oneEdge_divides _ _) run' finished'), by decide, colors⟩

end DistributedColoring

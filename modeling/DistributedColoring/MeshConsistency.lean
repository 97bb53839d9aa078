import DistributedColoring.MeshRefinement
import DistributedColoring.Serializability

set_option autoImplicit false

/- What each server of the mesh shows of the SETs of a client: always a prefix. So a
status is never seen before the colour it stands for. -/
namespace DistributedColoring

open GuardedRun
open ReplicatedLog

variable {k N : ℕ} {D : Deployment k N}

/-- What holds in every run over logs whose servers start without a status. In
particular no log has a colour of a node behind its status. -/
structure Settling (D : Deployment k N) (store : Key → Option ℤ) (s : State k N) : Prop where
  sound : Sound D s
  recorded : Recorded D s
  stamped : Stamped s
  traced : s.net.Traced fun _ => store
  colorsFirst : ∀ o, (s.net.log o).Pairwise fun a b => ∀ v, a.1 = .status v → b.1 ≠ .color v
  written : ∀ c v, v ∈ s.history → D.Owns c v → s.net.store (D.server c) (.color v) ≠ none

theorem start_settling {store : Key → Option ℤ} (statuses : ∀ u, store (.status u) = none) :
    Settling D store (D.start store) where
  sound := start_sound store
  recorded := start_recorded store
  stamped := by
    refine ⟨?_, fun o u x member => absurd member List.not_mem_nil⟩
    intro t u x stored
    change store (.status u) = some x at stored
    rw [statuses u] at stored
    cases stored
  traced := fun t key => Or.inl rfl
  colorsFirst := fun o => List.Pairwise.nil
  written := fun c v member => absurd member List.not_mem_nil

/-- Once the `write_with_wait` of a colour has returned, the colour is not sent again. -/
theorem Done.not_sent {s : State k N} {v : ℕ} (done : Done s v) (valid : D.Valid)
    (sound : Sound D s) (recorded : Recorded D s) {c : Fin k} {w : Write} {again : Bool}
    (pc : (s.loc c).pc = .set w again) : .color v ≠ (w.command (s.loc c).node).1 := by
  intro same
  obtain ⟨⟨x, write⟩, node⟩ := write_of_color same.symm
  subst write node
  cases again with
  | true => exact done.2 c x rfl (Or.inr pc)
  | false =>
      have reading : (s.loc c).pc.Reading := by
        simp [pc, Pc.Reading, Pc.Active, Pc.Colored]
      exact recorded.notMem sound valid reading done.1

theorem Settling.step {store : Key → Option ℤ} {s s' : State k N} {a : Action k N}
    (settling : Settling D store s) (valid : D.Valid) (taken : StepCase D s a s') :
    Settling D store s' := by
  have sound := settling.sound
  have sound' := sound.step valid taken
  have recorded' := settling.recorded.step valid sound taken
  have stamped' := settling.stamped.step valid sound settling.recorded taken
  cases taken with
  | quiet c move l' quiet =>
      exact ⟨sound', recorded', stamped', settling.traced, settling.colorsFirst,
        settling.written⟩
  | send c w again pc =>
      refine ⟨sound', recorded', stamped', settling.traced.write sound.wf _ _ _, ?_, ?_⟩
      · intro o
        rw [put_net, send_net]
        by_cases here : o = D.server c
        · subst here
          rw [Net.write_log_self, List.pairwise_append]
          refine ⟨settling.colorsFirst _, List.pairwise_singleton _ _, ?_⟩
          intro entry old new last v status
          rw [List.mem_singleton.mp last]
          obtain ⟨key, x⟩ := entry
          subst status
          have done := settling.stamped.logged _ v x old
          exact (done.not_sent valid sound settling.recorded pc).symm
        · rw [Net.write_log_other _ _ _ here]
          exact settling.colorsFirst o
      · intro d v member owns
        rw [put_net, send_net]
        rcases mem_history_of_send (D.server c) member with old | same
        · exact Net.write_store_ne_none _ _ _ (settling.written d v old owns)
        · have node := (write_of_color same).2
          rw [← node] at owns
          have client := valid.owner_unique owns ((sound.shape c).owns (by simp [pc, Pc.Active]))
          subst client
          rw [same, Net.write_store_self]
          exact Option.some_ne_none _
  | deliver t o key x front =>
      refine ⟨sound', recorded', stamped', settling.traced.replay front, settling.colorsFirst, ?_⟩
      intro c v member owns
      exact Net.replay_store_ne_none _ _ _ _ (settling.written c v member owns)

theorem Settling.run {store : Key → Option ℤ} {s s' : State k N} (settling : Settling D store s)
    (valid : D.Valid) (run : Reaches D.step s s') : Settling D store s' :=
  run.invariant (P := Settling D store) settling fun _ _ _ old _ taken =>
    old.step valid (step_cases taken)

theorem Settling.owner {store : Key → Option ℤ} {s : State k N} (settling : Settling D store s)
    {v : ℕ} (done : Done s v) : ∃ c, D.Owns c v := by
  obtain ⟨c, processed⟩ := (settling.recorded.mem v).mp done.1
  exact ⟨c, processed.owns (settling.sound.shape c)⟩

/-- The colour of `v` is final, and nothing under way to `t` would change it there. -/
def Landed (s : State k N) (t : Fin N) (v : ℕ) : Prop :=
  Done s v ∧ ¬ s.net.InFlight t (.color v)

theorem Landed.step {store : Key → Option ℤ} {s s' : State k N} {a : Action k N} {t : Fin N}
    {v : ℕ} (landed : Landed s t v) (settling : Settling D store s) (valid : D.Valid)
    (taken : StepCase D s a s') :
    Landed s' t v ∧ s'.net.store t (.color v) = s.net.store t (.color v) := by
  obtain ⟨done, quiet⟩ := landed
  have done' : Done s' v := done.step valid settling.sound settling.recorded taken
  cases taken with
  | quiet c move l' _ => exact ⟨⟨done', quiet⟩, rfl⟩
  | send c w again pc =>
      have apart := done.not_sent valid settling.sound settling.recorded pc
      refine ⟨⟨done', ?_⟩, ?_⟩
      · rw [put_net, send_net, Net.inFlight_write_other_key settling.sound.wf _ _ _ apart]
        exact quiet
      · rw [put_net, send_net, Net.write_store_other_key _ _ _ _ apart]
  | deliver r o key x front =>
      exact ⟨⟨done', fun pending => quiet (Net.inFlight_of_replay pending)⟩,
        Net.replay_store_of_not_inFlight front quiet⟩

theorem Landed.run {store : Key → Option ℤ} {s s' : State k N} {t : Fin N} {v : ℕ}
    (landed : Landed s t v) (settling : Settling D store s) (valid : D.Valid)
    (run : Reaches D.step s s') : s'.net.store t (.color v) = s.net.store t (.color v) := by
  have kept : (Settling D store s' ∧ Landed s' t v) ∧
      s'.net.store t (.color v) = s.net.store t (.color v) := by
    apply run.invariant (P := fun x => (Settling D store x ∧ Landed x t v) ∧
      x.net.store t (.color v) = s.net.store t (.color v))
    · exact ⟨⟨settling, landed⟩, rfl⟩
    · intro x a y both _ taken
      obtain ⟨⟨settling, landed⟩, same⟩ := both
      obtain ⟨landed', unchanged⟩ := landed.step settling valid (step_cases taken)
      exact ⟨⟨settling.step valid (step_cases taken), landed'⟩, unchanged.trans same⟩
  exact kept.2

/-- A server that shows a status has replayed every SET of the colour. -/
theorem Settling.landed {store : Key → Option ℤ} {s : State k N} (settling : Settling D store s)
    (statuses : ∀ u, store (.status u) = none) {t : Fin N} {v : ℕ} {x : ℤ}
    (stored : s.net.store t (.status v) = some x) : Landed s t v := by
  have done := settling.stamped.stored t v x stored
  refine ⟨done, ?_⟩
  intro ⟨o, y, pending⟩
  obtain ⟨c, owns⟩ := settling.owner done
  rcases settling.traced t (.status v) with initial | ⟨p, z, replayed, _⟩
  · have missing := initial.trans (statuses v)
    rw [stored] at missing
    cases missing
  · -- Status and colour come from the server of the owner, the status first.
    have colorHome := (settling.sound.tracks c (.color v) v owns rfl).only o y
      (List.mem_of_mem_drop pending)
    have statusHome := (settling.sound.tracks c (.status v) v owns rfl).only p z
      (List.mem_of_mem_take replayed)
    subst colorHome statusHome
    have order := settling.colorsFirst (D.server c)
    rw [← List.take_append_drop (s.net.seen t (D.server c)) (s.net.log (D.server c)),
      List.pairwise_append] at order
    exact order.2.2 _ replayed _ pending v rfl rfl

/-- With everything delivered, servers agree on each key that has one writer. -/
theorem Settling.agree {store : Key → Option ℤ} {s : State k N} (settling : Settling D store s)
    (all : ∀ t o, s.net.seen t o = (s.net.log o).length) {key : Key} {v : ℕ}
    (writer : key.writer = some v) (t r : Fin N) : s.net.store t key = s.net.store r key := by
  have quiet : ∀ t, ¬ s.net.InFlight t key := by
    intro t ⟨o, x, pending⟩
    rw [all t o, List.drop_length] at pending
    cases pending
  by_cases owned : ∃ c, D.Owns c v
  · obtain ⟨c, owns⟩ := owned
    have tracks := settling.sound.tracks c key v owns writer
    rw [tracks.agree t (quiet t), tracks.agree r (quiet r)]
  · have initial : ∀ t, s.net.store t key = store key := by
      intro t
      rcases settling.traced t key with same | ⟨o, x, replayed, _⟩
      · exact same
      · obtain ⟨c, u, _, owns, mine | ⟨w, turn, _⟩⟩ :=
          settling.sound.origin o key x (List.mem_of_mem_take replayed)
        · rw [writer] at mine
          cases mine
          exact absurd ⟨c, owns⟩ owned
        · rw [turn] at writer
          cases writer
    rw [initial t, initial r]

section Mesh

variable {m : MeshState k N} {n : StampedFlood.Flood (Fin N) (SetCommand k)} {s : State k N}

/-- What a server has applied of the SETs of a client is a prefix of them. -/
theorem Refines.applied_prefix (refines : Refines D m n s) (t : Fin N) (c : Fin k) :
    (m.servers t).applied.filter (fun op => op.client = c) <+: m.issued c := by
  have applied : (m.servers t).applied.filter (fun op => op.client = c) =
      ((n.arrived t (D.server c)).map Prod.snd).filter fun op => op.client = c := by
    rw [(refines.floods.mirrors t).applied]
    unfold StampedFlood.Flood.arrived
    rw [List.map_map, List.filter_map, List.filter_map, List.filter_filter]
    congr 1
    apply List.filter_congr
    intro x member
    have home := refines.home t x member
    by_cases mine : x.op.client = c
    · rw [mine] at home
      simp [StampedFlood.Message.tag, mine, home]
    · simp [StampedFlood.Message.tag, mine]
  rw [applied, refines.issued c]
  exact ((refines.floods.inOrder.ordered t (D.server c)).map Prod.snd).filter _

theorem Refines.seen_eq (refines : Refines D m n s)
    (all : ∀ t o, t ≠ o → m.read t o = (m.servers o).backlog.length) (t o : Fin N) :
    s.net.seen t o = (s.net.log o).length := by
  rw [refines.seen, refines.log, List.length_map]
  congr 1
  apply refines.floods.delivered.arrived_eq refines.floods.inOrder
  intro other
  rw [← refines.floods.read, all t o other, (refines.floods.mirrors o).backlog, List.length_map]

end Mesh

/-- In a mesh of fewer than 64 servers, over all orders of deliveries, every server
sees a prefix of the SETs of every client. A status stands for a colour that is there
and final, and with everything delivered the servers agree on all keys but the turns. -/
theorem mesh_prefix_consistent (D : Deployment k N) (valid : D.Valid)
    (size : N < replayMaxNesting) {store : Key → Option ℤ}
    (statuses : ∀ u, store (.status u) = none) {m : MeshState k N}
    (run : Reaches D.meshStep (D.meshStart store) m) :
    (∀ t c, (m.servers t).applied.filter (fun op => op.client = c) <+: m.issued c) ∧
      (∀ t v, (m.servers t).db (.status v) = some 1 → ∃ c x, D.Owns c v ∧
        ∀ m', Reaches D.meshStep m m' → (m'.servers t).db (.color v) = some x ∧
          (m'.servers (D.server c)).db (.color v) = some x) ∧
      ((∀ t o, t ≠ o → m.read t o = (m.servers o).backlog.length) →
        ∀ t r key, (∀ edge, key ≠ .turn edge) →
          (m.servers t).db key = (m.servers r).db key) := by
  obtain ⟨n, s, refines, logged⟩ := (start_refines (D := D) store).run size run
  have settling := (start_settling statuses).run valid logged
  refine ⟨refines.applied_prefix, ?_, ?_⟩
  · intro t v stored
    rw [← refines.store t] at stored
    have landed := settling.landed statuses stored
    obtain ⟨c, owns⟩ := settling.owner landed.1
    have tracks := settling.sound.tracks c (.color v) v owns rfl
    have home : Landed s (D.server c) v := ⟨landed.1, tracks.not_inFlight_self settling.sound.wf⟩
    obtain ⟨x, value⟩ := Option.ne_none_iff_exists'.mp (settling.written c v landed.1.1 owns)
    refine ⟨c, x, owns, fun m' later => ?_⟩
    obtain ⟨n', s', refines', after⟩ := refines.run size later
    rw [← refines'.store, ← refines'.store, landed.run settling valid after,
      home.run settling valid after, tracks.agree t landed.2]
    exact ⟨value, value⟩
  · intro all t r key notTurn
    rw [← refines.store, ← refines.store]
    cases key with
    | turn edge => exact absurd rfl (notTurn edge)
    | color v => exact settling.agree (refines.seen_eq all) rfl t r
    | status v => exact settling.agree (refines.seen_eq all) rfl t r
    | flag edge v => exact settling.agree (refines.seen_eq all) rfl t r

/-- Server 2 gets the SETs of client 0 from server 1 first and drops the direct copies. -/
theorem oneEdge_prefix_consistent :
    ∃ m, Reaches (oneEdge (fun _ => (0 : Fin 3)) 0).meshStep
        ((oneEdge (fun _ => (0 : Fin 3)) 0).meshStart (oneEdge (fun _ => (0 : Fin 3)) 0).loaded) m ∧
      (m.servers 2).applied = m.issued 0 ∧ (m.servers 2).db (.status 0) = some 1 ∧
      (m.servers 0).db (.color 0) = (m.servers 2).db (.color 0) ∧
      ∃ c x, (oneEdge (fun _ => (0 : Fin 3)) 0).Owns c 0 ∧
        ∀ m', Reaches (oneEdge (fun _ => (0 : Fin 3)) 0).meshStep m m' →
          (m'.servers 2).db (.color 0) = some x ∧ (m'.servers 0).db (.color 0) = some x := by
  obtain ⟨m, run, applied, status, all⟩ := exists_run_of_exec
    (oneEdge (fun _ => (0 : Fin 3)) 0).meshStep (fun _ _ => True)
    ((oneEdge (fun _ => (0 : Fin 3)) 0).meshStart (oneEdge (fun _ => (0 : Fin 3)) 0).loaded)
    (fun m => (m.servers 2).applied = m.issued 0 ∧ (m.servers 2).db (.status 0) = some 1 ∧
      ∀ t o, t ≠ o → m.read t o = (m.servers o).backlog.length)
    [.client 0 (.smembers [1]) 1, .client 0 (.smembers [1]) 1, .client 0 .get 1,
      .client 0 .set 1, .client 0 (.wait 0) 2, .client 0 .set 2, .client 0 (.wait 0) 3,
      .client 0 (.lockGet .otherFlag) 3, .client 0 (.lockGet .turnVar) 3, .client 0 .get 3,
      .client 0 .set 3, .client 0 (.wait 0) 4, .client 0 .set 4, .client 0 (.wait 0) 5,
      .client 0 .set 5, .client 0 (.wait 0) 6,
      .deliver 1 0 1, .deliver 1 0 2, .deliver 1 0 3, .deliver 1 0 4, .deliver 1 0 5,
      .deliver 2 1 1, .deliver 2 1 2, .deliver 2 1 3, .deliver 2 1 4, .deliver 2 1 5,
      .deliver 2 0 6, .deliver 2 0 6, .deliver 2 0 6, .deliver 2 0 6, .deliver 2 0 6,
      .deliver 0 1 6, .deliver 0 1 6, .deliver 0 1 6, .deliver 0 1 6, .deliver 0 1 6,
      .deliver 0 2 6, .deliver 0 2 6, .deliver 0 2 6, .deliver 0 2 6, .deliver 0 2 6,
      .deliver 1 2 6, .deliver 1 2 6, .deliver 1 2 6, .deliver 1 2 6, .deliver 1 2 6]
    (by decide +kernel)
  obtain ⟨_, final, agree⟩ := mesh_prefix_consistent _ (oneEdge_valid _ _) (by decide)
    (fun _ => rfl) run
  obtain ⟨c, x, owns, later⟩ := final 2 0 status
  exact ⟨m, run, applied, status, agree all 0 2 _ (by simp), c, x, owns, later⟩

end DistributedColoring

import DistributedColoring.Monitor
import DistributedColoring.Pipeline

set_option autoImplicit false

/- When the script counts all the clients that it has launched, and when it does not. -/
namespace DistributedColoring

open CText
open GuardedRun (Run Reaches)

variable {k N : ℕ} {X : Experiment k N}

/-- The clients are the launches of `run_code_sync` on the ranges of `get_partition`, one for
each client. -/
structure Experiment.Dispatched (X : Experiment k N) (username : Text)
    (servers clients partitions names : List Text) (startNode endNode : ℤ) : Prop where
  order : startNode ≤ endNode
  distinct : clients.Nodup
  listed : partitions.Perm ((getPartition startNode endNode clients.length).map Prod.snd)
  named : ∀ map ∈ generateMap username clients, names.Perm (map.map Prod.fst)
  launched : ∃ launches ∈ runCodeSync username servers clients partitions names,
    X.Launched launches

namespace Experiment.Dispatched

variable {username : Text} {servers clients partitions names : List Text} {startNode endNode : ℤ}

theorem count (dispatched : X.Dispatched username servers clients partitions names
    startNode endNode) : clients.length = k := by
  obtain ⟨launches, started, launched⟩ := dispatched.launched
  rw [← launched.count, (generateMap_of_started started).2,
    names_length dispatched.distinct dispatched.named started]

/-- The clients have the ranges, in some order. -/
theorem perm_ranges (dispatched : X.Dispatched username servers clients partitions names
    startNode endNode) (positive : 1 ≤ clients.length)
    (fits : FitsLong startNode endNode clients.length)
    (range : ∀ r ∈ ranges startNode endNode clients.length, InInt r.1 ∧ InInt r.2) :
    (List.ofFn fun c => (X.firstNode c, X.lastNode c)).Perm
      (ranges startNode endNode clients.length) := by
  have listed := dispatched.listed
  rw [getPartition_eq dispatched.order positive fits] at listed
  obtain ⟨launches, started, launched⟩ := dispatched.launched
  have lengths : names.length = (ranges startNode endNode clients.length).length := by
    rw [names_length dispatched.distinct dispatched.named started, ranges, List.length_map,
      List.length_range]
  exact launched.bounds_perm range (runCodeSync_eq started listed lengths).2

/-- No more clients than nodes: every client has a node, and all of them are given. -/
theorem bounds (dispatched : X.Dispatched username servers clients partitions names
    startNode endNode) (many : (clients.length : ℤ) ≤ endNode - startNode + 1)
    (first : 0 ≤ startNode) (small : endNode < 2 ^ 31) (c : Fin k) :
    startNode ≤ X.firstNode c ∧ X.firstNode c ≤ X.lastNode c ∧ X.lastNode c ≤ endNode := by
  have positive : 1 ≤ clients.length := by
    rw [dispatched.count]
    exact Nat.one_le_of_lt c.isLt
  have share : 1 ≤ (endNode - startNode + 1) / (clients.length : ℤ) :=
    (Int.le_ediv_iff_mul_le (by omega)).mpr (by omega)
  have inside : ∀ r ∈ ranges startNode endNode clients.length,
      startNode ≤ r.1 ∧ r.1 ≤ r.2 ∧ r.2 ≤ endNode := by
    intro r member
    have ends := ranges_bounds dispatched.order positive member
    have balanced := (ranges_balanced member).1
    omega
  have range : ∀ r ∈ ranges startNode endNode clients.length, InInt r.1 ∧ InInt r.2 := by
    intro r member
    have ends := inside r member
    unfold InInt
    omega
  have fits : FitsLong startNode endNode clients.length :=
    ⟨by omega, by omega, by omega, by omega, .inr many⟩
  exact inside _ ((dispatched.perm_ranges positive fits range).mem_iff.mp
    (List.mem_ofFn.mpr ⟨c, rfl⟩))

/-- More clients than nodes: some client has none. -/
theorem exists_empty_range (dispatched : X.Dispatched username servers clients partitions names
    startNode endNode) (few : endNode - startNode + 1 < clients.length)
    (parts : clients.length < 2 ^ 63) (low : -2 ^ 31 < startNode) (high : endNode + 1 < 2 ^ 31) :
    ∃ c, X.lastNode c < X.firstNode c := by
  have order := dispatched.order
  have positive : 1 ≤ clients.length := by omega
  have range : ∀ r ∈ ranges startNode endNode clients.length, InInt r.1 ∧ InInt r.2 := by
    intro r member
    have ends := ranges_bounds order positive member
    unfold InInt
    omega
  by_contra none
  push Not at none
  have perm := dispatched.perm_ranges positive
    ⟨by omega, by omega, by omega, parts, .inl (by omega)⟩ range
  have nonempty : ∀ r ∈ ranges startNode endNode clients.length, r.1 ≤ r.2 := by
    intro r member
    obtain ⟨c, same⟩ := List.mem_ofFn.mp (perm.mem_iff.mpr member)
    rw [← same]
    exact none c
  -- The first nodes of the ranges are different nodes.
  have firsts : ((ranges startNode endNode clients.length).map Prod.fst).Nodup := by
    rw [List.Nodup, List.pairwise_map]
    refine (ranges_ordered order positive).imp_of_mem ?_
    intro p q memberP _ less
    have := nonempty p memberP
    omega
  have inside : ((ranges startNode endNode clients.length).map Prod.fst).toFinset ⊆
      Finset.Icc startNode endNode := by
    intro node member
    obtain ⟨r, given, rfl⟩ := List.mem_map.mp (List.mem_toFinset.mp member)
    have ends := ranges_bounds order positive given
    have := nonempty r given
    exact Finset.mem_Icc.mpr ⟨ends.1, by omega⟩
  have card := Finset.card_le_card inside
  rw [List.toFinset_card_of_nodup firsts, List.length_map, ranges, List.length_map,
    List.length_range, Int.card_Icc] at card
  omega

end Experiment.Dispatched

/-- More clients than nodes: the script never counts them all. -/
theorem too_many_clients {username : Text} {servers clients partitions names : List Text}
    {startNode endNode : ℤ}
    (dispatched : X.Dispatched username servers clients partitions names startNode endNode)
    (few : endNode - startNode + 1 < clients.length) (parts : clients.length < 2 ^ 63)
    (low : -2 ^ 31 < startNode) (high : endNode + 1 < 2 ^ 31) {store : Key → Option ℤ}
    {monitor : AssocArray} {s : Progress k N} (run : Reaches X.advance (X.begin store monitor) s)
    (flushed : s.script.flushed = true) : (statusKeys s.monitor).length ≠ clients.length := by
  obtain ⟨c, empty⟩ := dispatched.exists_empty_range few parts low high
  rw [dispatched.count]
  exact count_of_empty_range empty run flushed

/-- The steps that lose no client: a report that is executed after FLUSHALL and accepted, and a
list of keys that is not refused. -/
def prompt (s : Progress k N) : Event k N → Bool
  | .report _ (.stored _) => s.script.flushed
  | .report _ (.lost _ _) => true
  | .report _ _ => false
  | .fetchKeys _ (.error _) => false
  | .fetchKeys _ .nil => false
  | _ => true

/-- What prompt steps keep: a client ends by reporting or by a connection error, and a report
is in the monitor. -/
structure Prompted (X : Experiment k N) (s : Progress k N) : Prop where
  waiting : s.script.flushed = false → ∀ c, s.stage c ≠ .exited .returned
  reported : s.script.flushed = true → ∀ c, s.stage c = .exited .returned →
    X.statusKey c ∈ s.monitor.map Prod.fst
  ends : ∀ c exit, s.stage c = .exited exit → exit = .connectionError ∨ exit = .returned

theorem Prompted.setStage {s : Progress k N} (prompted : Prompted X s) (c : Fin k) {stage : Stage}
    (ends : ∀ exit, stage = .exited exit → exit = .connectionError) :
    Prompted X (s.setStage c stage) := by
  have other : ∀ d exit, (s.setStage c stage).stage d = .exited exit →
      exit = .connectionError ∨ s.stage d = .exited exit := by
    intro d exit gone
    by_cases same : d = c
    · subst same
      rw [setStage_self] at gone
      exact .inl (ends exit gone)
    · rw [setStage_other s stage same] at gone
      exact .inr gone
  refine ⟨?_, ?_, ?_⟩
  · intro unflushed d gone
    rcases other d _ gone with impossible | before
    · cases impossible
    · exact prompted.waiting unflushed d before
  · intro flushed d gone
    rcases other d _ gone with impossible | before
    · cases impossible
    · exact prompted.reported flushed d before
  · intro d exit gone
    rcases other d exit gone with same | before
    · exact .inl same
    · exact prompted.ends d exit before

theorem Prompted.grow {s : Progress k N} (prompted : Prompted X s) {monitor : AssocArray}
    (more : ∀ key ∈ s.monitor.map Prod.fst, key ∈ monitor.map Prod.fst) :
    Prompted X { s with monitor := monitor } :=
  ⟨prompted.waiting, fun flushed c gone => more _ (prompted.reported flushed c gone), prompted.ends⟩

/-- A report that is stored after FLUSHALL. -/
theorem Prompted.stored {s : Progress k N} (prompted : Prompted X s)
    (flushed : s.script.flushed = true) (c : Fin k) (time : Text) :
    Prompted X { s.setStage c (.exited .returned) with
      monitor := s.monitor.assign (X.statusKey c) time } := by
  refine ⟨?_, ?_, ?_⟩
  · intro unflushed
    rw [show s.script.flushed = false from unflushed] at flushed
    cases flushed
  · intro _ d gone
    rw [AssocArray.mem_keys_assign]
    by_cases same : d = c
    · exact .inr (congrArg X.statusKey same)
    · exact .inl (prompted.reported flushed d ((setStage_other s _ same).symm.trans gone))
  · intro d exit gone
    by_cases same : d = c
    · subst same
      cases (setStage_self s d _).symm.trans gone
      exact .inr rfl
    · exact prompted.ends d exit ((setStage_other s _ same).symm.trans gone)

theorem Advance.prompted {s s' : Progress k N} {e : Event k N} (advance : Advance X s e s')
    (nonempty : ∀ c, X.firstNode c ≤ X.lastNode c) (keys : X.keys ≠ [])
    (guard : prompt s e = true) (prompted : Prompted X s) : Prompted X s' := by
  cases advance with
  | launch index script more =>
      have unflushed : s.script.flushed = false := by
        rw [script]
        rfl
      refine ⟨fun _ => prompted.waiting unflushed, fun flushed => ?_, prompted.ends⟩
      cases flushed
  | flushall script =>
      have unflushed : s.script.flushed = false := by
        rw [script]
        rfl
      refine ⟨fun still => ?_, fun _ c gone => ?_, prompted.ends⟩
      · cases still
      · exact absurd gone (prompted.waiting unflushed c)
  | poll reply script listed =>
      have flushed := flushed_of_polling script
      refine ⟨fun unflushed => ?_, fun _ => prompted.reported flushed, prompted.ends⟩
      dsimp only at unflushed
      split at unflushed <;> cases unflushed
  | connect c connected stage =>
      refine prompted.setStage c ?_
      have range : ¬ (X.client c).lastNode < (X.client c).firstNode := not_lt.mpr (nonempty c)
      unfold Client.onConnect
      rw [if_neg range]
      cases connected <;> simp [eq_comm]
  | fetchKeys c reply stage answered =>
      refine prompted.setStage c ?_
      cases reply with
      | null => simp [onFetchKeys, eq_comm]
      | nil => cases guard
      | error msg => cases guard
      | value fetched =>
          have same : fetched = X.keys := of_decide_eq_true answered
          simp [onFetchKeys, same, keys]
  | color a t runs taken => exact ⟨prompted.waiting, prompted.reported, prompted.ends⟩
  | report c report stage finished =>
      cases report with
      | stored time => exact prompted.stored guard c time
      | refused => cases guard
      | noTime => cases guard
      | lost time executed =>
          have ended : Prompted X (s.setStage c (.exited .connectionError)) :=
            prompted.setStage c (by simp [eq_comm])
          refine ended.grow ?_
          intro key member
          cases executed with
          | false => exact member
          | true => exact AssocArray.mem_keys_assign.mpr (.inl member)

/-- In every run whose reports are prompt, on no more clients than there are nodes and on
positions that exist, the script counts all the clients once they are gone. It then leaves its
loop just when their number is the one it was written for. -/
theorem completion_detected (username : Text) (servers clients partitions names : List Text)
    (startNode endNode : ℤ) (X : Experiment k N)
    (dispatched : X.Dispatched username servers clients partitions names startNode endNode)
    (many : (clients.length : ℤ) ≤ endNode - startNode + 1) (first : 0 ≤ startNode)
    (last : endNode < X.keys.length) (small : endNode < 2 ^ 31) (store : Key → Option ℤ)
    (monitor : AssocArray) (s : Progress k N)
    (run : Run X.advance (fun s e => prompt s e = true) (X.begin store monitor) s)
    (polling : s.script = .polling) (exited : ∀ c, s.Exited c)
    (connected : ∀ c, s.stage c ≠ .exited .connectionError) :
    (statusKeys s.monitor).length = clients.length ∧
      ∀ reply, reply.Perm (statusKeys s.monitor) → X.advance s (.poll reply) = some { s with
        script := if clients.length = expectedClients then .left else .polling } := by
  have bounds := dispatched.bounds many first small
  have order := dispatched.order
  have keys : X.keys ≠ [] := by
    intro none
    rw [none, List.length_nil] at last
    omega
  have inside : ∀ c, X.InKeys c := by
    intro c i low high
    have ends := bounds c
    have position : i.toNat < X.keys.length := by omega
    rw [Client.keyAt, if_pos (by omega)]
    show X.keys[i.toNat]? ≠ none
    simpa using position
  have prompted : Prompted X s :=
    run.invariant ⟨by simp [Experiment.begin], by simp [Experiment.begin, Script.flushed],
      by simp [Experiment.begin]⟩
      fun _ _ _ prompted guard taken =>
        (advance_cases taken).prompted (fun c => (bounds c).2.1) keys guard prompted
  have flushed := flushed_of_polling polling
  have tidy := tidy_of_run run
  have count : (statusKeys s.monitor).length = clients.length := by
    rw [dispatched.count, tidy.count_eq_iff flushed]
    intro c
    rcases exited c with ⟨exit, gone⟩ | ⟨_, crashed⟩
    · rcases prompted.ends c exit gone with rfl | rfl
      · exact absurd gone (connected c)
      · exact prompted.reported flushed c gone
    · exact absurd crashed (never_crashed inside (coloring_reached run) c)
  refine ⟨count, fun reply listed => ?_⟩
  rw [tidy.poll polling listed, count]

/-- Twenty clients on one server, each with one node of a graph of ten edges. -/
def twentyClients : Experiment 20 1 where
  nbrs v := if v % 2 = 0 then {v + 1} else {v - 1}
  keys := List.range 20
  firstNode c := c.val
  lastNode c := c.val
  server _ := ⟨0, Nat.one_pos⟩
  required := 0
  plain := 0
  order := .sync
  host c := ⟨"yangra".toList ++ decimal (c.val + 1), by revert c; decide +kernel,
    by revert c; decide +kernel⟩
  distinct := by
    intro c d
    revert c d
    decide +kernel

def twentyNames : List Text := (List.range 20).map fun i => "yangra".toList ++ decimal (i + 1)

theorem twentyClients_dispatched :
    twentyClients.Dispatched "abhattar".toList ["lhotse1".toList] twentyNames
      ((getPartition 0 19 20).map Prod.snd) twentyNames 0 19 := by
  have distinct : twentyNames.Nodup := by decide +kernel
  have named : [] ∉ twentyNames := by decide +kernel
  obtain ⟨launches, started⟩ : ∃ launches, launches ∈ runCodeSync "abhattar".toList
      ["lhotse1".toList] twentyNames ((getPartition 0 19 20).map Prod.snd) twentyNames :=
    exists_runCodeSync _ (by decide) (by decide) named _ _
  refine ⟨by decide, distinct, .refl _, ?_, launches, started, ?_, ?_⟩
  · intro map made
    rw [generateMap_keys distinct made]
  · rw [(generateMap_of_started started).2]
    rfl
  · intro c
    have found : ((runCodeSync "abhattar".toList ["lhotse1".toList] twentyNames
        ((getPartition 0 19 20).map Prod.snd) twentyNames).any fun launches =>
          launches[c.val]?.any fun l =>
            twentyClients.firstNode c = atoi l.start ∧ twentyClients.lastNode c = atoi l.finish) =
        true := by
      revert c
      decide +kernel
    rw [Option.mem_def.mp started, Option.any_some] at found
    obtain ⟨l, listed, bounds⟩ := (Option.any_eq_true ..).mp found
    exact ⟨l, listed, of_decide_eq_true bounds⟩

/-- A client of `twentyClients` that runs alone: the first end of an edge takes the lock, the
second one finds the first coloured. -/
def aloneFrom (c : Fin 20) : List (Event 20 1) :=
  let moves : List Move :=
    if c.val % 2 = 0 then
      [.smembers [c.val + 1], .smembers [c.val + 1], .get, .set, .wait 0, .set, .wait 0,
        .lockGet .otherFlag, .lockGet .turnVar, .get, .set, .wait 0, .set, .wait 0, .set, .wait 0]
    else
      [.smembers [c.val - 1], .smembers [c.val - 1], .get, .get, .set, .wait 0, .set, .wait 0]
  [.connect c true, .fetchKeys c (.value (List.range 20))] ++
    moves.map (fun move => .color (.client c move)) ++ [.report c (.stored "12:00:00".toList)]

/-- The script, with some clients that run before its FLUSHALL and some after it. -/
def flushBetween (early late : List (Fin 20)) : List (Event 20 1) :=
  List.replicate 20 .launch ++ early.flatMap aloneFrom ++ .flushall :: late.flatMap aloneFrom

theorem completion_detected_twenty : ∃ s,
    Run twentyClients.advance (fun s e => prompt s e = true)
      (twentyClients.begin twentyClients.loaded []) s ∧
    s.script = .polling ∧ (∀ c, s.stage c = .exited .returned) ∧
    (statusKeys s.monitor).length = 20 ∧
    twentyClients.advance s (.poll (statusKeys s.monitor)) = some { s with script := .left } := by
  obtain ⟨s, run, polling, returned⟩ := GuardedRun.exists_run_of_exec twentyClients.advance
    (fun s e => prompt s e = true) (twentyClients.begin twentyClients.loaded [])
    (fun s => s.script = .polling ∧ ∀ c, s.stage c = .exited .returned)
    (flushBetween [] (List.finRange 20)) (by decide +kernel)
  obtain ⟨count, poll⟩ := completion_detected _ _ _ _ _ 0 19 twentyClients
    twentyClients_dispatched (by decide) (by decide) (by decide) (by decide) _ _ s run polling
    (fun c => .inl ⟨_, returned c⟩) (fun c => by simp [returned c])
  exact ⟨s, run, polling, returned, count, poll _ (.refl _)⟩

/-- A client that reports before FLUSHALL: all have returned, and the script polls for ever. -/
theorem early_report_lost : ∃ s,
    twentyClients.Dispatched "abhattar".toList ["lhotse1".toList] twentyNames
      ((getPartition 0 19 20).map Prod.snd) twentyNames 0 19 ∧
    Reaches twentyClients.advance (twentyClients.begin twentyClients.loaded []) s ∧
    s.script = .polling ∧ (∀ c, s.Exited c) ∧ (∀ c, s.stage c ≠ .exited .connectionError) ∧
    (statusKeys s.monitor).length ≠ 20 ∧
    ∀ t, Reaches twentyClients.advance s t → t.script = .polling := by
  obtain ⟨s, run, polling, returned, missing⟩ := GuardedRun.exists_run_of_exec
    twentyClients.advance (fun _ _ => True) (twentyClients.begin twentyClients.loaded [])
    (fun s => s.script = .polling ∧ (∀ c, s.stage c = .exited .returned) ∧
      twentyClients.statusKey ⟨0, by decide⟩ ∉ s.monitor.map Prod.fst)
    (flushBetween [⟨0, by decide⟩] (List.finRange 20).tail) (by decide +kernel)
  have tidy := tidy_of_run run
  have lost : Lost twentyClients s ⟨0, by decide⟩ :=
    ⟨flushed_of_polling polling, ⟨_, returned _⟩, missing⟩
  exact ⟨s, twentyClients_dispatched, run, polling, fun c => .inl ⟨_, returned c⟩,
    fun c => by simp [returned c], (lost_forever tidy lost (.refl : Reaches _ s s)).1,
    fun t later => (lost_forever tidy lost later).2 rfl polling⟩

end DistributedColoring

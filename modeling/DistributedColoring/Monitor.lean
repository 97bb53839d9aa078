import DistributedColoring.CrashFreedom
import DistributedColoring.Dispatch
import DistributedColoring.KeyNames

set_option autoImplicit false

/- How the master learns that the clients are done: a client reports to the monitor, the
database of the master, when it has coloured its nodes, and `check_completion` of
master_run_code.sh counts the reports. The clients run while the script launches the
others, empties the monitor and polls it. -/
namespace DistributedColoring

open CText
open GuardedRun (Run Reaches)

variable {k N : ℕ}

/-- What `hostname` prints: one line of at most `HOST_NAME_MAX` characters. -/
structure Hostname where
  text : Text
  short : text.length ≤ 64
  line : '\n' ∉ text

/-- The clients of a deployment on machines of different names. -/
structure Experiment (k N : ℕ) extends Deployment k N where
  host : Fin k → Hostname
  distinct : Function.Injective fun c => (host c).text

/-- How `main` ends, apart from a crash. -/
inductive Exit
  /-- `first_node_id_of_first_task > last_node_id_of_last_task` -/
  | badRange
  /-- A connection could not be made, or a reply is NULL. -/
  | connectionError
  /-- `fetch_keys` has no keys to return. -/
  | noKeys
  /-- Past `set_status_to_monitor`, on a connection that worked. -/
  | returned
  deriving DecidableEq

/-- What `main` does next. -/
inductive Stage
  | started
  | connected
  | coloring
  | exited (exit : Exit)
  deriving DecidableEq

/-- Where the script is: in the loop of `run_code_sync`, in that of `check_completion`, or past
both. -/
inductive Script
  | launching (index : ℕ)
  | polling
  | left
  deriving DecidableEq

/-- FLUSHALL has been executed. -/
def Script.flushed : Script → Bool
  | .launching _ => false
  | _ => true

def Script.launched (script : Script) (c : Fin k) : Bool :=
  match script with
  | .launching index => c.val < index
  | _ => true

structure Progress (k N : ℕ) where
  script : Script
  stage : Fin k → Stage
  coloring : State k N
  monitor : AssocArray

/-- What becomes of the SET of `set_status_to_monitor`. -/
inductive Report
  | stored (time : Text)
  | refused
  /-- The reply is NULL, whether or not the command was executed. -/
  | lost (time : Text) (executed : Bool)
  /-- `time(NULL)` failed. -/
  | noTime
  deriving DecidableEq

inductive Event (k N : ℕ)
  | launch
  | flushall
  /-- KEYS lists the keys in any order. -/
  | poll (reply : List Text)
  | connect (c : Fin k) (connected : Bool)
  | fetchKeys (c : Fin k) (reply : Reply (List ℕ))
  | color (a : Action k N)
  | report (c : Fin k) (report : Report)

/-- `snprintf(key, sizeof(key), "%s_status", hostname)` -/
def statusKey (hostname : Text) : Text := snprintf 256 (hostname ++ "_status".toList)

def setStatusToMonitor (monitor : AssocArray) (hostname : Text) : Report → AssocArray × Exit
  | .stored time => (monitor.assign (statusKey hostname) time, .returned)
  | .refused => (monitor, .returned)
  | .lost time executed =>
      (if executed then monitor.assign (statusKey hostname) time else monitor, .connectionError)
  | .noTime => (monitor, .returned)

/-- The test of the arguments, then `redisConnect`. -/
def Client.onConnect (c : Client) (connected : Bool) : Stage :=
  if c.lastNode < c.firstNode then .exited .badRange
  else if connected then .connected
  else .exited .connectionError

def onFetchKeys : Reply (List ℕ) → Stage
  | .null => .exited .connectionError
  | .value keys => if keys = [] then .exited .noKeys else .coloring
  | _ => .exited .noKeys

def statusPattern : Text := "*_status".toList

/-- The keys that `KEYS "*_status"` lists. -/
def statusKeys (monitor : AssocArray) : List Text :=
  (monitor.map Prod.fst).filter (stringmatch statusPattern)

/-- What keydb-cli prints for a reply to KEYS: a newline between the keys and one after them. -/
def cliOutput (reply : List Text) : Text := List.intercalate ['\n'] reply ++ ['\n']

/-- `wc -l` -/
def wcLines (text : Text) : ℕ := text.count '\n'

/-- `EXPECTED_CLIENTS` -/
def expectedClients : ℕ := 20

namespace Progress

def setStage (s : Progress k N) (c : Fin k) (stage : Stage) : Progress k N :=
  { s with stage := Function.update s.stage c stage }

/-- A client sends commands in the loop of `main` only; the servers go on by themselves. -/
def runs (s : Progress k N) : Action k N → Bool
  | .client c _ => s.stage c = .coloring
  | .deliver _ _ => true

/-- The process is gone. -/
def Exited (s : Progress k N) (c : Fin k) : Prop :=
  (∃ exit, s.stage c = .exited exit) ∨ s.stage c = .coloring ∧ (s.coloring.loc c).pc = .crashed

/-- The client has coloured its nodes and is gone. -/
def Finished (s : Progress k N) (c : Fin k) : Prop :=
  (∃ exit, s.stage c = .exited exit) ∧ (s.coloring.loc c).pc = .finished

end Progress

namespace Experiment

variable (X : Experiment k N)

def statusKey (c : Fin k) : Text := DistributedColoring.statusKey (X.host c).text

/-- Before the first client is launched, whatever the monitor holds. -/
def begin (store : Key → Option ℤ) (monitor : AssocArray) : Progress k N :=
  ⟨.launching 0, fun _ => .started, X.start store, monitor⟩

/-- KEYS on a server lists the keys of the graph, or fails. -/
def answersKeys : Reply (List ℕ) → Bool
  | .value keys => keys = X.keys
  | _ => true

/-- A step of the script or of a client that is launched. -/
def advance (s : Progress k N) : Event k N → Option (Progress k N)
  | .launch =>
      match s.script with
      | .launching index =>
          if index < k then some { s with script := .launching (index + 1) } else none
      | _ => none
  | .flushall =>
      if s.script = .launching k then some { s with script := .polling, monitor := [] } else none
  | .poll reply =>
      if s.script = .polling ∧ reply.Perm (statusKeys s.monitor) then
        some { s with
          script := if wcLines (cliOutput reply) = expectedClients then .left else .polling }
      else none
  | .connect c connected =>
      if s.script.launched c ∧ s.stage c = .started then
        some (s.setStage c ((X.client c).onConnect connected))
      else none
  | .fetchKeys c reply =>
      if s.stage c = .connected ∧ X.answersKeys reply then some (s.setStage c (onFetchKeys reply))
      else none
  | .color a =>
      if s.runs a then
        (X.step s.coloring a).map fun t => { s with coloring := t }
      else none
  | .report c report =>
      if s.stage c = .coloring ∧ (s.coloring.loc c).pc = .finished then
        let result := setStatusToMonitor s.monitor (X.host c).text report
        some { s.setStage c (.exited result.2) with monitor := result.1 }
      else none

end Experiment

variable {X : Experiment k N}

/-- Every step of an experiment. -/
inductive Advance (X : Experiment k N) (s : Progress k N) : Event k N → Progress k N → Prop
  | launch (index : ℕ) (script : s.script = .launching index) (more : index < k) :
      Advance X s .launch { s with script := .launching (index + 1) }
  | flushall (script : s.script = .launching k) :
      Advance X s .flushall { s with script := .polling, monitor := [] }
  | poll (reply : List Text) (script : s.script = .polling)
      (listed : reply.Perm (statusKeys s.monitor)) :
      Advance X s (.poll reply) { s with
        script := if wcLines (cliOutput reply) = expectedClients then .left else .polling }
  | connect (c : Fin k) (connected : Bool) (stage : s.stage c = .started) :
      Advance X s (.connect c connected) (s.setStage c ((X.client c).onConnect connected))
  | fetchKeys (c : Fin k) (reply : Reply (List ℕ)) (stage : s.stage c = .connected)
      (answered : X.answersKeys reply = true) :
      Advance X s (.fetchKeys c reply) (s.setStage c (onFetchKeys reply))
  | color (a : Action k N) (t : State k N) (runs : s.runs a = true)
      (taken : X.step s.coloring a = some t) : Advance X s (.color a) { s with coloring := t }
  | report (c : Fin k) (report : Report) (stage : s.stage c = .coloring)
      (finished : (s.coloring.loc c).pc = .finished) :
      Advance X s (.report c report)
        { s.setStage c (.exited (setStatusToMonitor s.monitor (X.host c).text report).2) with
          monitor := (setStatusToMonitor s.monitor (X.host c).text report).1 }

theorem advance_cases {s s' : Progress k N} {e : Event k N} (taken : X.advance s e = some s') :
    Advance X s e s' := by
  cases e with
  | launch =>
      simp only [Experiment.advance] at taken
      split at taken
      · rename_i index script
        split at taken
        · rename_i more
          cases taken
          exact .launch index script more
        · cases taken
      · cases taken
  | flushall =>
      simp only [Experiment.advance, Option.ite_none_right_eq_some, Option.some.injEq] at taken
      obtain ⟨script, rfl⟩ := taken
      exact .flushall script
  | poll reply =>
      simp only [Experiment.advance, Option.ite_none_right_eq_some, Option.some.injEq] at taken
      obtain ⟨⟨script, listed⟩, rfl⟩ := taken
      exact .poll reply script listed
  | connect c connected =>
      simp only [Experiment.advance, Option.ite_none_right_eq_some, Option.some.injEq] at taken
      obtain ⟨⟨_, stage⟩, rfl⟩ := taken
      exact .connect c connected stage
  | fetchKeys c reply =>
      simp only [Experiment.advance, Option.ite_none_right_eq_some, Option.some.injEq] at taken
      obtain ⟨⟨stage, answered⟩, rfl⟩ := taken
      exact .fetchKeys c reply stage answered
  | color a =>
      simp only [Experiment.advance, Option.ite_none_right_eq_some] at taken
      obtain ⟨runs, moved⟩ := taken
      obtain ⟨t, taken, rfl⟩ := Option.map_eq_some_iff.mp moved
      exact .color a t runs taken
  | report c report =>
      simp only [Experiment.advance, Option.ite_none_right_eq_some, Option.some.injEq] at taken
      obtain ⟨⟨stage, finished⟩, rfl⟩ := taken
      exact .report c report stage finished

@[simp] theorem setStage_self (s : Progress k N) (c : Fin k) (stage : Stage) :
    (s.setStage c stage).stage c = stage := by
  simp [Progress.setStage]

theorem setStage_other (s : Progress k N) {c d : Fin k} (stage : Stage) (other : d ≠ c) :
    (s.setStage c stage).stage d = s.stage d := by
  simp [Progress.setStage, other]

theorem ne_of_stage {s : Progress k N} {c d : Fin k} {here there : Stage} (first : s.stage c = here)
    (second : s.stage d = there) (apart : here ≠ there) : c ≠ d := by
  rintro rfl
  exact apart (first.symm.trans second)

theorem flushed_of_polling {s : Progress k N} (polling : s.script = .polling) :
    s.script.flushed = true := by
  rw [polling]
  rfl

/-- A client moves by its own commands only. -/
theorem step_loc_other {D : Deployment k N} {s t : State k N} {a : Action k N} {c : Fin k}
    (taken : D.step s a = some t) (other : ∀ move, a ≠ .client c move) : t.loc c = s.loc c := by
  cases step_cases taken with
  | quiet d move l quiet =>
      have apart : c ≠ d := by
        rintro rfl
        exact other move rfl
      exact put_loc_other s l apart
  | send d w again pc =>
      have apart : c ≠ d := by
        rintro rfl
        exact other .set rfl
      exact put_loc_other _ _ apart
  | deliver r o key v front => rfl

/-- A client that has exited does nothing more. -/
theorem Advance.exited {s s' : Progress k N} {e : Event k N} (advance : Advance X s e s')
    {c : Fin k} {exit : Exit} (gone : s.stage c = .exited exit) :
    s'.stage c = .exited exit ∧ s'.coloring.loc c = s.coloring.loc c := by
  cases advance with
  | launch index script more => exact ⟨gone, rfl⟩
  | flushall script => exact ⟨gone, rfl⟩
  | poll reply script listed => exact ⟨gone, rfl⟩
  | connect d connected stage =>
      have apart := ne_of_stage gone stage (by simp)
      exact ⟨(setStage_other s _ apart).trans gone, rfl⟩
  | fetchKeys d reply stage answered =>
      have apart := ne_of_stage gone stage (by simp)
      exact ⟨(setStage_other s _ apart).trans gone, rfl⟩
  | color a t runs taken =>
      refine ⟨gone, step_loc_other taken ?_⟩
      rintro move rfl
      simp [Progress.runs, gone] at runs
  | report d report stage finished =>
      have apart := ne_of_stage gone stage (by simp)
      exact ⟨(setStage_other s _ apart).trans gone, rfl⟩

theorem Advance.finished {s s' : Progress k N} {e : Event k N} (advance : Advance X s e s')
    {c : Fin k} (finished : s.Finished c) : s'.Finished c := by
  obtain ⟨⟨exit, gone⟩, pc⟩ := finished
  obtain ⟨still, same⟩ := advance.exited gone
  exact ⟨⟨exit, still⟩, by rw [same, pc]⟩

/-- The colouring itself runs as it does without the script. -/
theorem coloring_reached {ok : Progress k N → Event k N → Prop} {store : Key → Option ℤ}
    {monitor : AssocArray} {s : Progress k N} (run : Run X.advance ok (X.begin store monitor) s) :
    Reaches X.step (X.start store) s.coloring := by
  refine run.invariant (P := fun s => Reaches X.step (X.start store) s.coloring) .refl ?_
  intro s e s' reached _ taken
  cases advance_cases taken with
  | color a t runs moved => exact reached.tail trivial moved
  | _ => exact reached

theorem setStatusToMonitor_cases (monitor : AssocArray) (hostname : Text) (report : Report) :
    (setStatusToMonitor monitor hostname report).1 = monitor ∨
      ∃ time, (setStatusToMonitor monitor hostname report).1 =
        monitor.assign (statusKey hostname) time := by
  cases report with
  | stored time => exact .inr ⟨time, rfl⟩
  | refused => exact .inl rfl
  | lost time executed =>
      cases executed with
      | false => exact .inl rfl
      | true => exact .inr ⟨time, rfl⟩
  | noTime => exact .inl rfl

/-- After FLUSHALL the monitor holds reports of this experiment only, one for each client. -/
structure Tidy (X : Experiment k N) (s : Progress k N) : Prop where
  nodup : s.script.flushed = true → (s.monitor.map Prod.fst).Nodup
  known : s.script.flushed = true → ∀ key ∈ s.monitor.map Prod.fst,
    ∃ c, s.Finished c ∧ key = X.statusKey c

/-- A step that keeps the monitor and does not flush it. -/
theorem Tidy.keep {s s' : Progress k N} {e : Event k N} (tidy : Tidy X s)
    (advance : Advance X s e s') (monitor : s'.monitor = s.monitor)
    (flushed : s'.script.flushed = true → s.script.flushed = true) : Tidy X s' := by
  constructor
  · intro now
    rw [monitor]
    exact tidy.nodup (flushed now)
  · intro now key member
    rw [monitor] at member
    obtain ⟨c, finished, same⟩ := tidy.known (flushed now) key member
    exact ⟨c, advance.finished finished, same⟩

theorem Advance.tidy {s s' : Progress k N} {e : Event k N} (advance : Advance X s e s')
    (tidy : Tidy X s) : Tidy X s' := by
  have taken := advance
  cases taken with
  | launch index script more => exact ⟨by simp [Script.flushed], by simp [Script.flushed]⟩
  | flushall script => exact ⟨by simp, by simp⟩
  | poll reply script listed => exact tidy.keep advance rfl fun _ => flushed_of_polling script
  | connect c connected stage => exact tidy.keep advance rfl id
  | fetchKeys c reply stage answered => exact tidy.keep advance rfl id
  | color a t runs taken => exact tidy.keep advance rfl id
  | report c report stage finished =>
      rcases setStatusToMonitor_cases s.monitor (X.host c).text report with same | ⟨time, stored⟩
      · exact tidy.keep advance same id
      · constructor
        · intro now
          show ((setStatusToMonitor s.monitor (X.host c).text report).1.map Prod.fst).Nodup
          rw [stored]
          exact AssocArray.nodup_keys_assign (tidy.nodup now) _ _
        · intro now key member
          rw [stored] at member
          rcases AssocArray.mem_keys_assign.mp member with old | new
          · obtain ⟨d, done, same⟩ := tidy.known now key old
            exact ⟨d, advance.finished done, same⟩
          · exact ⟨c, ⟨⟨_, setStage_self _ _ _⟩, finished⟩, new⟩

theorem tidy_begin (X : Experiment k N) (store : Key → Option ℤ) (monitor : AssocArray) :
    Tidy X (X.begin store monitor) :=
  ⟨by simp [Experiment.begin, Script.flushed], by simp [Experiment.begin, Script.flushed]⟩

theorem tidy_of_run {ok : Progress k N → Event k N → Prop} {store : Key → Option ℤ}
    {monitor : AssocArray} {s : Progress k N} (run : Run X.advance ok (X.begin store monitor) s) :
    Tidy X s :=
  run.invariant (tidy_begin X store monitor)
    fun _ _ _ tidy _ taken => (advance_cases taken).tidy tidy

theorem statusKey_eq (host : Hostname) : statusKey host.text = host.text ++ "_status".toList := by
  have short := host.short
  apply snprintf_eq
  rw [List.length_append]
  change _ + 7 < 256
  omega

theorem statusKey_injective (X : Experiment k N) : Function.Injective X.statusKey := by
  intro c d same
  simp only [Experiment.statusKey, statusKey_eq] at same
  exact X.distinct (List.append_cancel_right same)

theorem matches_statusPattern (key : Text) :
    stringmatch statusPattern key = true ↔ ∃ front, key = front ++ "_status".toList := by
  have parts : statusPattern = '*' :: ("_status".toList ++ []) := by decide
  rw [parts]
  simp only [stringmatch_star, stringmatch_literal (show '*' ∉ "_status".toList by decide)]
  constructor
  · rintro ⟨front, _, split, rest, split', done⟩
    rw [stringmatch] at done
    rw [split, split', List.isEmpty_iff.mp done, List.append_nil]
    exact ⟨front, rfl⟩
  · rintro ⟨front, split⟩
    refine ⟨front, _, split, [], ?_, rfl⟩
    rw [List.append_nil]

theorem newline_notMem_statusKey (X : Experiment k N) (c : Fin k) : '\n' ∉ X.statusKey c := by
  rw [Experiment.statusKey, statusKey_eq, List.mem_append]
  rintro (host | rest)
  · exact (X.host c).line host
  · exact absurd rest (by decide)

theorem count_intercalate (key : Text) (rest : List Text)
    (lines : ∀ key' ∈ key :: rest, '\n' ∉ key') :
    (List.intercalate ['\n'] (key :: rest)).count '\n' = rest.length := by
  induction rest generalizing key with
  | nil =>
      rw [List.intercalate_singleton]
      exact List.count_eq_zero.mpr (lines key List.mem_cons_self)
  | cons next rest ih =>
      have first := List.count_eq_zero.mpr (lines key List.mem_cons_self)
      rw [List.intercalate_cons_cons, List.count_append, List.count_append, first,
        ih next fun key' member => lines key' (List.mem_cons_of_mem key member)]
      simp
      omega

/-- `wc -l` counts the keys, but one line where there are none. -/
theorem wcLines_cliOutput {reply : List Text} (lines : ∀ key ∈ reply, '\n' ∉ key) :
    wcLines (cliOutput reply) = max 1 reply.length := by
  rw [wcLines, cliOutput, List.count_append]
  cases reply with
  | nil => rfl
  | cons key rest =>
      rw [count_intercalate key rest lines, List.length_cons]
      simp

theorem mem_statusKeys (X : Experiment k N) {monitor : AssocArray} {c : Fin k} :
    X.statusKey c ∈ statusKeys monitor ↔ X.statusKey c ∈ monitor.map Prod.fst := by
  have matched : stringmatch statusPattern (X.statusKey c) = true :=
    (matches_statusPattern _).mpr ⟨_, statusKey_eq (X.host c)⟩
  rw [statusKeys, List.mem_filter, and_iff_left matched]

theorem Tidy.subperm {s : Progress k N} (tidy : Tidy X s) (flushed : s.script.flushed = true) :
    (statusKeys s.monitor).Subperm ((List.finRange k).map X.statusKey) := by
  refine List.subperm_of_subset ((tidy.nodup flushed).filter _) ?_
  intro key member
  obtain ⟨c, _, same⟩ := tidy.known flushed key (List.mem_filter.mp member).1
  rw [same]
  exact List.mem_map_of_mem (List.mem_finRange c)

/-- The count is the number of clients just when each of them has its report there. -/
theorem Tidy.count_eq_iff {s : Progress k N} (tidy : Tidy X s)
    (flushed : s.script.flushed = true) :
    (statusKeys s.monitor).length = k ↔ ∀ c, X.statusKey c ∈ s.monitor.map Prod.fst := by
  have listed := tidy.subperm flushed
  constructor
  · intro count c
    have all := listed.perm_of_length_le (by rw [List.length_map, List.length_finRange, count])
    rw [← mem_statusKeys, all.mem_iff]
    exact List.mem_map_of_mem (List.mem_finRange c)
  · intro all
    refine Nat.le_antisymm (listed.length_le.trans (by simp)) ?_
    have distinct := (List.nodup_finRange k).map (statusKey_injective X)
    have present : (List.finRange k).map X.statusKey ⊆ statusKeys s.monitor := by
      intro key member
      obtain ⟨c, _, rfl⟩ := List.mem_map.mp member
      exact (mem_statusKeys X).mpr (all c)
    have back := (List.subperm_of_subset distinct present).length_le
    rwa [List.length_map, List.length_finRange] at back

/-- The next poll leaves the loop when the count is the constant of the script. -/
theorem Tidy.poll {s : Progress k N} (tidy : Tidy X s) (polling : s.script = .polling)
    {reply : List Text} (listed : reply.Perm (statusKeys s.monitor)) :
    X.advance s (.poll reply) = some { s with
      script := if (statusKeys s.monitor).length = expectedClients then .left else .polling } := by
  have lines : wcLines (cliOutput reply) = max 1 (statusKeys s.monitor).length := by
    rw [wcLines_cliOutput, listed.length_eq]
    intro key member
    obtain ⟨c, _, same⟩ := tidy.known (flushed_of_polling polling) key
      (List.mem_filter.mp (listed.mem_iff.mp member)).1
    rw [same]
    exact newline_notMem_statusKey X c
  have same : max 1 (statusKeys s.monitor).length = expectedClients ↔
      (statusKeys s.monitor).length = expectedClients := by
    have twenty : expectedClients = 20 := rfl
    omega
  simp only [Experiment.advance, polling, listed, and_self, if_true, lines, same]

theorem Tidy.finished {s : Progress k N} (tidy : Tidy X s) (flushed : s.script.flushed = true)
    {c : Fin k} (reported : X.statusKey c ∈ s.monitor.map Prod.fst) : s.Finished c := by
  obtain ⟨d, finished, same⟩ := tidy.known flushed _ reported
  rw [statusKey_injective X same]
  exact finished

theorem Advance.left {s s' : Progress k N} {e : Event k N} (advance : Advance X s e s')
    (tidy : Tidy X s) (left : s'.script = .left) :
    s.script = .left ∨
      s.script = .polling ∧ (statusKeys s.monitor).length = expectedClients := by
  cases advance with
  | launch index script more => cases left
  | flushall script => cases left
  | poll reply script listed =>
      have polled := tidy.poll script listed
      simp only [Experiment.advance, script, listed, and_self, if_true, Option.some.injEq] at polled
      have scripts := congrArg Progress.script polled
      rw [left] at scripts
      refine .inr ⟨script, ?_⟩
      by_contra other
      rw [if_neg other] at scripts
      cases scripts
  | connect c connected stage => exact .inl left
  | fetchKeys c reply stage answered => exact .inl left
  | color a t runs taken => exact .inl left
  | report c report stage finished => exact .inl left

/-- With as many clients as the script expects, it leaves the loop only after all of them
have coloured their nodes. -/
theorem left_only_when_finished {ok : Progress k N → Event k N → Prop} {store : Key → Option ℤ}
    {monitor : AssocArray} (many : k = expectedClients) {s : Progress k N}
    (run : Run X.advance ok (X.begin store monitor) s) (left : s.script = .left) (c : Fin k) :
    s.Finished c := by
  refine (run.invariant (P := fun s => Tidy X s ∧ (s.script = .left → ∀ c, s.Finished c))
    ⟨tidy_begin X store monitor, by simp [Experiment.begin]⟩ ?_).2 left c
  rintro s e s' ⟨tidy, held⟩ _ taken
  have advance := advance_cases taken
  refine ⟨advance.tidy tidy, fun left c => advance.finished ?_⟩
  rcases advance.left tidy left with before | ⟨polling, count⟩
  · exact held before c
  · have flushed := flushed_of_polling polling
    exact tidy.finished flushed ((tidy.count_eq_iff flushed).mp (count.trans many.symm) c)

/-- A report adds the key of its own client only. -/
theorem missing_of_report {monitor : AssocArray} {c d : Fin k} (apart : c ≠ d) (report : Report)
    (missing : X.statusKey c ∉ monitor.map Prod.fst) :
    X.statusKey c ∉ (setStatusToMonitor monitor (X.host d).text report).1.map Prod.fst := by
  rcases setStatusToMonitor_cases monitor (X.host d).text report with same | ⟨time, stored⟩
  · rw [same]
    exact missing
  · rw [stored, AssocArray.mem_keys_assign]
    rintro (old | new)
    · exact missing old
    · exact apart (statusKey_injective X new)

theorem Advance.flushed {s s' : Progress k N} {e : Event k N} (advance : Advance X s e s')
    (flushed : s.script.flushed = true) : s'.script.flushed = true := by
  cases advance with
  | launch index script more =>
      rw [script] at flushed
      cases flushed
  | flushall script => rfl
  | poll reply script listed =>
      dsimp only
      split <;> rfl
  | _ => exact flushed

/-- Only a client in its loop can get its report into the monitor. -/
theorem Advance.missing {s s' : Progress k N} {e : Event k N} (advance : Advance X s e s')
    {c : Fin k} (silent : s.stage c ≠ .coloring)
    (missing : s.script.flushed = true → X.statusKey c ∉ s.monitor.map Prod.fst) :
    s'.script.flushed = true → X.statusKey c ∉ s'.monitor.map Prod.fst := by
  intro flushed
  cases advance with
  | launch index script more => cases flushed
  | flushall script => simp
  | poll reply script listed => exact missing (flushed_of_polling script)
  | report d report stage finished =>
      have apart : c ≠ d := by
        rintro rfl
        exact silent stage
      exact missing_of_report apart report (missing flushed)
  | _ => exact missing flushed

/-- The client is gone and its report is not there, though the monitor has been emptied. -/
structure Lost (X : Experiment k N) (s : Progress k N) (c : Fin k) : Prop where
  flushed : s.script.flushed = true
  exited : ∃ exit, s.stage c = .exited exit
  missing : X.statusKey c ∉ s.monitor.map Prod.fst

theorem Advance.lost {s s' : Progress k N} {e : Event k N} (advance : Advance X s e s')
    {c : Fin k} (lost : Lost X s c) : Lost X s' c := by
  obtain ⟨exit, gone⟩ := lost.exited
  have flushed := advance.flushed lost.flushed
  have silent : s.stage c ≠ .coloring := by simp [gone]
  exact ⟨flushed, ⟨exit, (advance.exited gone).1⟩,
    advance.missing silent (fun _ => lost.missing) flushed⟩

/-- A client that is lost once is lost for good, and the script that waits for all of them
never leaves its loop. -/
theorem lost_forever {ok : Progress k N → Event k N → Prop} {s t : Progress k N} {c : Fin k}
    (tidy : Tidy X s) (lost : Lost X s c) (run : Run X.advance ok s t) :
    (statusKeys t.monitor).length ≠ k ∧
      (k = expectedClients → s.script = .polling → t.script = .polling) := by
  have held := run.invariant (P := fun t => Tidy X t ∧ Lost X t c ∧
      (k = expectedClients → s.script = .polling → t.script ≠ .left))
    ⟨tidy, lost, fun _ polling => by simp [polling]⟩ ?_
  · obtain ⟨tidy, lost, stays⟩ := held
    refine ⟨fun count => lost.missing ((tidy.count_eq_iff lost.flushed).mp count c), ?_⟩
    intro many polling
    have flushed := lost.flushed
    have notLeft := stays many polling
    cases script : t.script with
    | launching index =>
        rw [script] at flushed
        cases flushed
    | polling => rfl
    | left => exact absurd script notLeft
  · rintro x e y ⟨tidy, lost, stays⟩ _ taken
    have advance := advance_cases taken
    refine ⟨advance.tidy tidy, advance.lost lost, fun many polling left => ?_⟩
    rcases advance.left tidy left with before | ⟨_, count⟩
    · exact stays many polling before
    · exact lost.missing ((tidy.count_eq_iff lost.flushed).mp (count.trans many.symm) c)

/-- A client with an empty range ends before it connects. -/
theorem Advance.emptyRange {s s' : Progress k N} {e : Event k N} (advance : Advance X s e s')
    {c : Fin k} (empty : X.lastNode c < X.firstNode c)
    (silent : s.stage c = .started ∨ s.stage c = .exited .badRange) :
    s'.stage c = .started ∨ s'.stage c = .exited .badRange := by
  cases advance with
  | connect d connected stage =>
      by_cases same : c = d
      · subst same
        right
        rw [setStage_self]
        exact if_pos empty
      · rw [setStage_other s _ same]
        exact silent
  | fetchKeys d reply stage answered =>
      have apart : c ≠ d := by
        rintro rfl
        simp [stage] at silent
      rw [setStage_other s _ apart]
      exact silent
  | report d report stage finished =>
      have apart : c ≠ d := by
        rintro rfl
        simp [stage] at silent
      exact (setStage_other s _ apart) ▸ silent
  | _ => exact silent

theorem missing_of_empty_range {ok : Progress k N → Event k N → Prop} {store : Key → Option ℤ}
    {monitor : AssocArray} {s : Progress k N} {c : Fin k} (empty : X.lastNode c < X.firstNode c)
    (run : Run X.advance ok (X.begin store monitor) s) (flushed : s.script.flushed = true) :
    X.statusKey c ∉ s.monitor.map Prod.fst := by
  refine (run.invariant (P := fun s => (s.stage c = .started ∨ s.stage c = .exited .badRange) ∧
      (s.script.flushed = true → X.statusKey c ∉ s.monitor.map Prod.fst))
    ⟨.inl rfl, by simp [Experiment.begin, Script.flushed]⟩ ?_).2 flushed
  rintro s e s' ⟨silent, missing⟩ _ taken
  have advance := advance_cases taken
  refine ⟨advance.emptyRange empty silent, advance.missing ?_ missing⟩
  rcases silent with stage | stage <;> simp [stage]

/-- So the count stays below the number of clients, and no poll finds them all. -/
theorem count_of_empty_range {ok : Progress k N → Event k N → Prop} {store : Key → Option ℤ}
    {monitor : AssocArray} {s : Progress k N} {c : Fin k} (empty : X.lastNode c < X.firstNode c)
    (run : Run X.advance ok (X.begin store monitor) s) (flushed : s.script.flushed = true) :
    (statusKeys s.monitor).length ≠ k := by
  intro count
  exact missing_of_empty_range empty run flushed
    (((tidy_of_run run).count_eq_iff flushed).mp count c)

end DistributedColoring

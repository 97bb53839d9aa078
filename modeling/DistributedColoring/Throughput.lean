import DistributedColoring.RingBuffer
import Mathlib.Algebra.BigOperators.Group.List.Basic
import Mathlib.Algebra.Field.Rat
import Mathlib.Data.BitVec

set_option autoImplicit false

/- The throughput windows of server.cpp. -/
namespace DistributedColoring

open RingBuffer

/-- The type `long`; its value is `BitVec.toInt`. -/
abbrev Long := BitVec 64

/-- `WINDOW_SIZE` -/
def windowSize : ℕ := 100

structure SlidingWindow extends Cursor windowSize where
  timestamps : Vector Long windowSize
  values : Vector Long windowSize

/-- Also what the static windows and a new entry of a map hold. -/
def initSlidingWindow : SlidingWindow where
  head := 0
  count := 0
  head_lt := by decide
  filling := .inr rfl
  timestamps := Vector.replicate windowSize 0
  values := Vector.replicate windowSize 0

/-- `now` is the reading of `mstime`. -/
def addToSlidingWindow (window : SlidingWindow) (now value : Long) : SlidingWindow where
  timestamps := window.timestamps.set window.head now window.head_lt
  values := window.values.set window.head value window.head_lt
  head := (window.head + 1) % windowSize
  count := if window.count < windowSize then window.count + 1 else window.count
  head_lt := Nat.mod_lt _ (by decide)
  filling := window.next_filling

def oldestIndex (window : SlidingWindow) : ℕ :=
  (window.head + windowSize - window.count) % windowSize

theorem oldestIndex_lt (window : SlidingWindow) : oldestIndex window < windowSize :=
  Nat.mod_lt _ (by decide)

/-- The loop over the slots `0 .. count - 1`. -/
def totalValue (window : SlidingWindow) : Long :=
  (window.values.toList.take window.count).foldl (· + ·) 0

/-- The quotient of doubles is a rational number here. -/
def calculateThroughput (window : SlidingWindow) (now : Long) : ℚ :=
  if window.count = 0 then 0
  else
    let timeDiff := now - window.timestamps.get ⟨oldestIndex window, oldestIndex_lt window⟩
    if timeDiff.toInt ≤ 0 then 0
    else ((totalValue window).toInt : ℚ) / ((timeDiff.toInt : ℚ) / 1000)

/-- A call of `addToSlidingWindow`. -/
structure Sample where
  now : Long
  value : Long
  deriving DecidableEq

def addSample (window : SlidingWindow) (sample : Sample) : SlidingWindow :=
  addToSlidingWindow window sample.now sample.value

def windowAfter (samples : List Sample) : SlidingWindow :=
  samples.foldl addSample initSlidingWindow

namespace SlidingWindow

def times (window : SlidingWindow) : Ring Long windowSize := ⟨window.toCursor, window.timestamps⟩

def amounts (window : SlidingWindow) : Ring Long windowSize := ⟨window.toCursor, window.values⟩

theorem times_foldl (samples : List Sample) (window : SlidingWindow) :
    (samples.foldl addSample window).times =
      (samples.map Sample.now).foldl Ring.write window.times := by
  induction samples generalizing window with
  | nil => rfl
  | cons sample samples ih => exact ih (addSample window sample)

theorem amounts_foldl (samples : List Sample) (window : SlidingWindow) :
    (samples.foldl addSample window).amounts =
      (samples.map Sample.value).foldl Ring.write window.amounts := by
  induction samples generalizing window with
  | nil => rfl
  | cons sample samples ih => exact ih (addSample window sample)

end SlidingWindow

theorem times_windowAfter (samples : List Sample) :
    (windowAfter samples).times.contents = (samples.rtake windowSize).map Sample.now := by
  rw [windowAfter, SlidingWindow.times_foldl, Ring.contents_foldl_write, ← map_rtake]
  rfl

theorem amounts_windowAfter (samples : List Sample) :
    (windowAfter samples).amounts.contents = (samples.rtake windowSize).map Sample.value := by
  rw [windowAfter, SlidingWindow.amounts_foldl, Ring.contents_foldl_write, ← map_rtake]
  rfl

theorem count_windowAfter (samples : List Sample) :
    (windowAfter samples).count = min samples.length windowSize := by
  have length := (windowAfter samples).times.contents_length
  rw [times_windowAfter, List.length_map, length_rtake] at length
  exact length.symm

theorem head_windowAfter (samples : List Sample) :
    (windowAfter samples).head = samples.length % windowSize := by
  have head := Ring.head_foldl_write initSlidingWindow.times (samples.map Sample.now)
  rw [← SlidingWindow.times_foldl, List.length_map] at head
  exact head.trans (by rw [show initSlidingWindow.times.head = 0 from rfl, Nat.zero_add])

theorem totalValue_windowAfter (samples : List Sample) :
    totalValue (windowAfter samples) = ((samples.rtake windowSize).map Sample.value).sum := by
  rw [totalValue, ← List.sum_eq_foldl, ← amounts_windowAfter]
  exact (windowAfter samples).amounts.contents_perm.symm.sum_eq

theorem count_ne_zero_of_head? {samples : List Sample} {oldest : Sample}
    (first : (samples.rtake windowSize).head? = some oldest) : (windowAfter samples).count ≠ 0 := by
  intro empty
  rw [count_windowAfter, ← length_rtake, List.length_eq_zero_iff] at empty
  rw [empty] at first
  cases first

theorem oldest_windowAfter {samples : List Sample} {oldest : Sample}
    (first : (samples.rtake windowSize).head? = some oldest) :
    (windowAfter samples).timestamps.get
      ⟨oldestIndex (windowAfter samples), oldestIndex_lt (windowAfter samples)⟩ = oldest.now := by
  have nonempty : (windowAfter samples).times.count ≠ 0 := count_ne_zero_of_head? first
  have head := Ring.contents_head? nonempty
  rw [times_windowAfter, List.head?_map, first] at head
  exact (Option.some.inj head).symm

/-- The rate of some samples at a time: their sum over the age of the first one, in seconds. -/
def rateOf (samples : List Sample) (now : Long) : ℚ :=
  match samples.head? with
  | none => 0
  | some oldest =>
      if 0 < (now - oldest.now).toInt then
        ((samples.map Sample.value).sum.toInt : ℚ) * 1000 / ((now - oldest.now).toInt : ℚ)
      else 0

theorem calculateThroughput_windowAfter (samples : List Sample) (now : Long) :
    calculateThroughput (windowAfter samples) now = rateOf (samples.rtake windowSize) now := by
  unfold calculateThroughput rateOf
  cases first : (samples.rtake windowSize).head? with
  | none =>
      have empty : (windowAfter samples).count = 0 := by
        rw [count_windowAfter, ← length_rtake, List.head?_eq_none_iff.mp first, List.length_nil]
      rw [if_pos empty]
  | some oldest =>
      have nonempty := count_ne_zero_of_head? first
      simp only [if_neg nonempty, oldest_windowAfter first, totalValue_windowAfter]
      by_cases later : 0 < (now - oldest.now).toInt
      · rw [if_neg (not_le.mpr later), if_pos later, div_div_eq_mul_div]
      · rw [if_pos (not_lt.mp later), if_neg later]

/-- The range of `long`. -/
def InLong (n : ℤ) : Prop := -2 ^ 63 ≤ n ∧ n < 2 ^ 63

theorem bmod_of_inLong {n : ℤ} (range : InLong n) : n.bmod (2 ^ 64) = n := by
  obtain ⟨low, high⟩ := range
  exact Int.bmod_eq_of_le (by omega) (by omega)

theorem toInt_sum (values : List Long) :
    values.sum.toInt = (values.map BitVec.toInt).sum.bmod (2 ^ 64) := by
  induction values with
  | nil => rfl
  | cons value values ih =>
      rw [List.sum_cons, BitVec.toInt_add, ih, List.map_cons, List.sum_cons, Int.add_bmod_bmod]

/-- The sum of the values as integers. -/
def valueSum (samples : List Sample) : ℤ := (samples.map fun sample => sample.value.toInt).sum

/-- Where the sum and the age fit in a `long`, the rate is that of the integers. -/
theorem rateOf_eq {samples : List Sample} {oldest : Sample} {now : Long}
    (first : samples.head? = some oldest)
    (total : InLong (valueSum samples))
    (age : InLong (now.toInt - oldest.now.toInt)) :
    rateOf samples now =
      if oldest.now.toInt < now.toInt then
        (valueSum samples : ℚ) * 1000 / ((now.toInt - oldest.now.toInt : ℤ) : ℚ)
      else 0 := by
  have sum : (samples.map Sample.value).sum.toInt = valueSum samples := by
    rw [toInt_sum, List.map_map]
    exact bmod_of_inLong total
  have difference : (now - oldest.now).toInt = now.toInt - oldest.now.toInt := by
    rw [BitVec.toInt_sub, bmod_of_inLong age]
  simp only [rateOf, first, sum, difference, Int.sub_pos]

/-- After any calls the window holds exactly the last samples, and the rate it reports is
theirs. All sums and differences are those of `long`; the last part is about those that do
not overflow. -/
theorem sliding_window_holds_last_samples (samples : List Sample) :
    let window := windowAfter samples
    let last := samples.drop (samples.length - window.count)
    window.count = min samples.length windowSize ∧
      window.head = samples.length % windowSize ∧
      oldestIndex window < windowSize ∧
      (∀ oldest ∈ last.head?, window.timestamps[oldestIndex window]? = some oldest.now) ∧
      totalValue window = (last.map Sample.value).sum ∧
      (∀ oldest ∈ last.head?, ∀ now, calculateThroughput window now =
        if 0 < (now - oldest.now).toInt then
          ((last.map Sample.value).sum.toInt : ℚ) * 1000 / ((now - oldest.now).toInt : ℚ)
        else 0) ∧
      (samples = [] → ∀ now, calculateThroughput window now = 0) ∧
      ∀ oldest ∈ last.head?, ∀ now,
        InLong (valueSum last) →
        InLong (now.toInt - oldest.now.toInt) →
        calculateThroughput window now =
          if oldest.now.toInt < now.toInt then
            (valueSum last : ℚ) * 1000 / ((now.toInt - oldest.now.toInt : ℤ) : ℚ)
          else 0 := by
  intro window last
  have last_eq : last = samples.rtake windowSize := by
    show samples.drop (samples.length - (windowAfter samples).count) = _
    rw [count_windowAfter, List.rtake]
    congr 1
    omega
  have rate := calculateThroughput_windowAfter samples
  rw [← last_eq] at rate
  refine ⟨count_windowAfter samples, head_windowAfter samples, oldestIndex_lt window, ?_, ?_, ?_,
    ?_, ?_⟩
  · intro oldest first
    rw [Vector.getElem?_eq_getElem (oldestIndex_lt window)]
    exact congrArg some (oldest_windowAfter (last_eq ▸ first))
  · rw [last_eq]
    exact totalValue_windowAfter samples
  · intro oldest first now
    rw [rate now, rateOf, Option.mem_def.mp first]
  · rintro rfl now
    exact rate now
  · intro oldest first now total age
    rw [rate now, rateOf_eq first total age]

/-- What is read of `c->flags` and `c->id`. -/
structure Requester where
  clientMaster : Bool
  clientSlave : Bool
  id : ℕ

structure ThroughputWindows where
  throughputWindow : SlidingWindow
  clientThroughputWindow : SlidingWindow
  masterThroughputWindows : ℕ → Option SlidingWindow
  replicaThroughputWindows : ℕ → Option SlidingWindow

/-- The static windows when the server starts. -/
def ThroughputWindows.start : ThroughputWindows :=
  ⟨initSlidingWindow, initSlidingWindow, fun _ => none, fun _ => none⟩

/-- `windows[id]`, which makes a missing entry, initialised where it holds nothing. -/
def windowEntry (windows : ℕ → Option SlidingWindow) (id : ℕ) : SlidingWindow :=
  let win := (windows id).getD initSlidingWindow
  if win.count = 0 then initSlidingWindow else win

/-- With the throughput that is logged; `now` and `later` are the two readings of `mstime`. -/
def trackThroughputForRequest (s : ThroughputWindows) (requestSize now later : Long) :
    ThroughputWindows × ℚ :=
  let win := addToSlidingWindow s.throughputWindow now requestSize
  ({ s with throughputWindow := win }, calculateThroughput win later)

def trackThroughputForRequestBySource (s : ThroughputWindows) (c : Requester)
    (requestSize now later : Long) : ThroughputWindows × ℚ :=
  if c.clientMaster then
    let win := addToSlidingWindow (windowEntry s.masterThroughputWindows c.id) now requestSize
    ({ s with
        masterThroughputWindows := Function.update s.masterThroughputWindows c.id (some win) },
      calculateThroughput win later)
  else if c.clientSlave then
    let win := addToSlidingWindow (windowEntry s.replicaThroughputWindows c.id) now requestSize
    ({ s with
        replicaThroughputWindows := Function.update s.replicaThroughputWindows c.id (some win) },
      calculateThroughput win later)
  else
    let win := addToSlidingWindow s.clientThroughputWindow now requestSize
    ({ s with clientThroughputWindow := win }, calculateThroughput win later)

/-- A SET of a client, with the readings of `mstime` while it is tracked. -/
structure TrackedSet where
  c : Requester
  now : Long
  later : Long
  nowBySource : Long
  laterBySource : Long

/-- The two calls of `processCommand`, both for a request of size 1. -/
def trackSet (s : ThroughputWindows) (request : TrackedSet) : ThroughputWindows :=
  (trackThroughputForRequestBySource (trackThroughputForRequest s 1 request.now request.later).1
    request.c 1 request.nowBySource request.laterBySource).1

/-- The clients that share a window. -/
inductive Source
  | master (id : ℕ)
  | replica (id : ℕ)
  | client
  deriving DecidableEq

def Requester.source (c : Requester) : Source :=
  if c.clientMaster then .master c.id else if c.clientSlave then .replica c.id else .client

namespace ThroughputWindows

def windowOf (s : ThroughputWindows) : Source → SlidingWindow
  | .master id => (s.masterThroughputWindows id).getD initSlidingWindow
  | .replica id => (s.replicaThroughputWindows id).getD initSlidingWindow
  | .client => s.clientThroughputWindow

/-- The window that the next request of a source is added to. -/
def entryOf (s : ThroughputWindows) : Source → SlidingWindow
  | .master id => windowEntry s.masterThroughputWindows id
  | .replica id => windowEntry s.replicaThroughputWindows id
  | .client => s.clientThroughputWindow

def setWindow (s : ThroughputWindows) (source : Source) (win : SlidingWindow) :
    ThroughputWindows :=
  match source with
  | .master id =>
      { s with
        masterThroughputWindows := Function.update s.masterThroughputWindows id (some win) }
  | .replica id =>
      { s with
        replicaThroughputWindows := Function.update s.replicaThroughputWindows id (some win) }
  | .client => { s with clientThroughputWindow := win }

@[simp] theorem throughputWindow_setWindow (s : ThroughputWindows) (source : Source)
    (win : SlidingWindow) : (s.setWindow source win).throughputWindow = s.throughputWindow := by
  cases source <;> rfl

theorem windowOf_setWindow (s : ThroughputWindows) (source other : Source) (win : SlidingWindow) :
    (s.setWindow source win).windowOf other = if other = source then win else s.windowOf other := by
  cases source <;> cases other <;>
    simp only [setWindow, windowOf, Source.master.injEq, Source.replica.injEq, reduceCtorEq,
      if_true, if_false]
  · rename_i id other
    by_cases same : other = id <;> simp [same]
  · rename_i id other
    by_cases same : other = id <;> simp [same]

end ThroughputWindows

open ThroughputWindows

theorem trackThroughputForRequestBySource_eq (s : ThroughputWindows) (c : Requester)
    (requestSize now later : Long) :
    trackThroughputForRequestBySource s c requestSize now later =
      (s.setWindow c.source (addToSlidingWindow (s.entryOf c.source) now requestSize),
        calculateThroughput (addToSlidingWindow (s.entryOf c.source) now requestSize) later) := by
  unfold trackThroughputForRequestBySource Requester.source
  split
  · rfl
  · split <;> rfl

theorem windowAfter_concat (samples : List Sample) (now value : Long) :
    windowAfter (samples ++ [⟨now, value⟩]) =
      addToSlidingWindow (windowAfter samples) now value := by
  rw [windowAfter, List.foldl_append]
  rfl

/-- Only a window that holds nothing is initialised again. -/
theorem windowEntry_eq {windows : ℕ → Option SlidingWindow} {id : ℕ} {samples : List Sample}
    (held : (windows id).getD initSlidingWindow = windowAfter samples) :
    windowEntry windows id = windowAfter samples := by
  simp only [windowEntry, held]
  split
  · rename_i empty
    rw [count_windowAfter] at empty
    have nothing : samples.length = 0 := by
      have positive : 0 < windowSize := by decide
      omega
    rw [List.eq_nil_of_length_eq_zero nothing]
    rfl
  · rfl

theorem entryOf_eq {s : ThroughputWindows} {source : Source} {samples : List Sample}
    (held : s.windowOf source = windowAfter samples) : s.entryOf source = windowAfter samples := by
  cases source with
  | master id => exact windowEntry_eq held
  | replica id => exact windowEntry_eq held
  | client => exact held

/-- The samples of all SETs. -/
def samplesOfAll (requests : List TrackedSet) : List Sample :=
  requests.map fun request => ⟨request.now, 1⟩

/-- The samples of the SETs of one source. -/
def samplesOf (source : Source) (requests : List TrackedSet) : List Sample :=
  (requests.filter fun request => request.c.source = source).map
    fun request => ⟨request.nowBySource, 1⟩

theorem samplesOf_concat (source : Source) (requests : List TrackedSet) (request : TrackedSet) :
    samplesOf source (requests ++ [request]) =
      if source = request.c.source then samplesOf source requests ++ [⟨request.nowBySource, 1⟩]
      else samplesOf source requests := by
  rw [samplesOf, List.filter_append, List.map_append]
  split
  · rename_i same
    simp [samplesOf, same]
  · rename_i other
    simp [samplesOf, Ne.symm other]

theorem windowOf_total (s : ThroughputWindows) (requestSize now later : Long) (source : Source) :
    (trackThroughputForRequest s requestSize now later).1.windowOf source = s.windowOf source := by
  cases source <;> rfl

/-- After any SETs the window of a source is that of its own samples. -/
theorem windowOf_foldl_trackSet (requests : List TrackedSet) (source : Source) :
    (requests.foldl trackSet .start).windowOf source = windowAfter (samplesOf source requests) := by
  induction requests using List.reverseRecOn generalizing source with
  | nil => cases source <;> rfl
  | append_singleton requests request ih =>
      rw [List.foldl_append, List.foldl_cons, List.foldl_nil, samplesOf_concat, trackSet,
        trackThroughputForRequestBySource_eq, windowOf_setWindow, windowOf_total]
      split
      · rename_i same
        rw [same, windowAfter_concat, entryOf_eq ((windowOf_total _ _ _ _ _).trans (ih _))]
      · exact ih source

theorem throughputWindow_foldl_trackSet (requests : List TrackedSet) :
    (requests.foldl trackSet .start).throughputWindow =
      windowAfter (samplesOfAll requests) := by
  induction requests using List.reverseRecOn with
  | nil => rfl
  | append_singleton requests request ih =>
      rw [List.foldl_append, List.foldl_cons, List.foldl_nil, samplesOfAll, List.map_append,
        List.map_singleton, windowAfter_concat, ← samplesOfAll, ← ih, trackSet,
        trackThroughputForRequestBySource_eq, throughputWindow_setWindow]
      rfl

theorem sum_ones {samples : List Sample} (ones : ∀ sample ∈ samples, sample.value = 1) :
    valueSum samples = samples.length := by
  have values : samples.map (fun sample => sample.value.toInt) = samples.map fun _ => 1 :=
    List.map_congr_left fun sample member => by
      rw [ones sample member]
      rfl
  rw [valueSum, values]
  simp

theorem value_of_mem_map (requests : List TrackedSet) (time : TrackedSet → Long) :
    ∀ sample ∈ requests.map fun request => Sample.mk (time request) 1, sample.value = 1 := by
  intro sample member
  obtain ⟨_, _, same⟩ := List.mem_map.mp member
  rw [← same]

/-- Requests of size 1 are counted: the last ones that fit, over the age of the first. -/
theorem calculateThroughput_ones {samples : List Sample} {oldest : Sample} {now : Long}
    (ones : ∀ sample ∈ samples, sample.value = 1)
    (first : (samples.rtake windowSize).head? = some oldest)
    (age : InLong (now.toInt - oldest.now.toInt)) :
    calculateThroughput (windowAfter samples) now =
      if oldest.now.toInt < now.toInt then
        ((min samples.length windowSize : ℕ) : ℚ) * 1000 /
          ((now.toInt - oldest.now.toInt : ℤ) : ℚ)
      else 0 := by
  have total : valueSum (samples.rtake windowSize) = (samples.rtake windowSize).length :=
    sum_ones fun sample member => ones sample (List.mem_of_mem_drop member)
  rw [length_rtake] at total
  have fits : InLong (valueSum (samples.rtake windowSize)) := by
    have small : windowSize = 100 := rfl
    constructor <;> omega
  rw [calculateThroughput_windowAfter, rateOf_eq first fits age, total]
  rfl

/-- After any SETs, the next one logs the rate of the last of them all. -/
theorem logged_throughput (requests : List TrackedSet) (request : TrackedSet) {oldest : Sample}
    (first : ((samplesOfAll (requests ++ [request])).rtake windowSize).head? = some oldest)
    (age : InLong (request.later.toInt - oldest.now.toInt)) :
    (trackThroughputForRequest (requests.foldl trackSet .start) 1 request.now request.later).2 =
      if oldest.now.toInt < request.later.toInt then
        ((min (requests.length + 1) windowSize : ℕ) : ℚ) * 1000 /
          ((request.later.toInt - oldest.now.toInt : ℤ) : ℚ)
      else 0 := by
  have ones : ∀ sample ∈ samplesOfAll (requests ++ [request]), sample.value = 1 :=
    value_of_mem_map _ _
  have logged := calculateThroughput_ones ones first age
  rw [samplesOfAll, List.length_map, List.length_append, List.map_append, List.map_singleton,
    windowAfter_concat, ← samplesOfAll, ← throughputWindow_foldl_trackSet] at logged
  exact logged

/-- And the rate of the last SETs of its own source. -/
theorem logged_throughput_by_source (requests : List TrackedSet) (request : TrackedSet)
    {oldest : Sample}
    (first : ((samplesOf request.c.source (requests ++ [request])).rtake windowSize).head? =
      some oldest)
    (age : InLong (request.laterBySource.toInt - oldest.now.toInt)) :
    (trackThroughputForRequestBySource
        (trackThroughputForRequest (requests.foldl trackSet .start) 1 request.now request.later).1
        request.c 1 request.nowBySource request.laterBySource).2 =
      if oldest.now.toInt < request.laterBySource.toInt then
        ((min ((samplesOf request.c.source requests).length + 1) windowSize : ℕ) : ℚ) * 1000 /
          ((request.laterBySource.toInt - oldest.now.toInt : ℤ) : ℚ)
      else 0 := by
  have ones : ∀ sample ∈ samplesOf request.c.source (requests ++ [request]), sample.value = 1 :=
    value_of_mem_map _ _
  have logged := calculateThroughput_ones ones first age
  have held := (windowOf_total (requests.foldl trackSet .start) 1 request.now request.later
    request.c.source).trans (windowOf_foldl_trackSet requests _)
  rw [samplesOf_concat, if_pos rfl, List.length_append, windowAfter_concat,
    ← entryOf_eq held] at logged
  rw [trackThroughputForRequestBySource_eq]
  exact logged

end DistributedColoring

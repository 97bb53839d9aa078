import Mathlib.Logic.Function.Basic
import Mathlib.Data.List.Basic
import Mathlib.Data.List.Induction

set_option autoImplicit false

/- Key-value stores kept on several servers. A write takes effect at once on the
server it is sent to, joins that server's log, and is replayed on every other
server once and in the order of the log. Servers, keys and values are arbitrary. -/
namespace ReplicatedLog

section Log

variable {K V : Type} [DecidableEq K]

/-- A store after the entries of a log. -/
def overlay (store : K → Option V) (log : List (K × V)) : K → Option V :=
  log.foldl (fun store e => Function.update store e.1 (some e.2)) store

theorem overlay_append (store : K → Option V) (log log' : List (K × V)) :
    overlay store (log ++ log') = overlay (overlay store log) log' :=
  List.foldl_append

theorem overlay_concat (store : K → Option V) (log : List (K × V)) (e : K × V) :
    overlay store (log ++ [e]) = Function.update (overlay store log) e.1 (some e.2) :=
  overlay_append store log [e]

variable [DecidableEq V]

/-- A log in which entries that repeat the one before them are dropped. -/
def dropRepeats (log : List (K × V)) : List (K × V) :=
  log.foldl (fun kept e => if kept.getLast? = some e then kept else kept ++ [e]) []

theorem dropRepeats_concat (log : List (K × V)) (e : K × V) :
    dropRepeats (log ++ [e]) =
      if (dropRepeats log).getLast? = some e then dropRepeats log else dropRepeats log ++ [e] := by
  unfold dropRepeats
  rw [List.foldl_append]
  rfl

/-- What takes effect once however often it is repeated does not see the repeats. -/
theorem foldl_dropRepeats {σ : Type} (f : σ → K × V → σ) (once : ∀ x e, f (f x e) e = f x e)
    (x : σ) (log : List (K × V)) : (dropRepeats log).foldl f x = log.foldl f x := by
  induction log using List.reverseRecOn with
  | nil => rfl
  | append_singleton log e ih =>
      rw [dropRepeats_concat, List.foldl_append, ← ih]
      split
      · rename_i last
        obtain ⟨front, split⟩ := List.getLast?_eq_some_iff.mp last
        rw [split, List.foldl_append]
        exact (once _ e).symm
      · exact List.foldl_append

theorem overlay_dropRepeats (store : K → Option V) (log : List (K × V)) :
    overlay store (dropRepeats log) = overlay store log :=
  foldl_dropRepeats _ (fun _ _ => Function.update_idem _ _ _) store log

end Log

structure Net (S K V : Type) where
  store : S → K → Option V
  log : S → List (K × V)
  /-- `seen t s` counts the entries of the log of `s` that have taken effect at `t`. -/
  seen : S → S → Nat

namespace Net

variable {S K V : Type}

def start (store : S → K → Option V) : Net S K V :=
  ⟨store, fun _ => [], fun _ _ => 0⟩

/-- Some entry for `k` has still to be replayed at `t`. -/
def InFlight (n : Net S K V) (t : S) (k : K) : Prop :=
  ∃ s v, (k, v) ∈ (n.log s).drop (n.seen t s)

/-- A server has applied its own log, and nobody is ahead of a log. -/
structure WellFormed (n : Net S K V) : Prop where
  own : ∀ s, n.seen s s = (n.log s).length
  bounded : ∀ t s, n.seen t s ≤ (n.log s).length

theorem start_wellFormed (store : S → K → Option V) : (start store).WellFormed :=
  ⟨fun _ => rfl, fun _ _ => Nat.le_refl _⟩

/-- A single server has nothing to receive. -/
theorem WellFormed.not_inFlight_of_subsingleton [Subsingleton S] {n : Net S K V}
    (wf : n.WellFormed) (t : S) (k : K) : ¬ n.InFlight t k := by
  intro ⟨s, v, member⟩
  rw [Subsingleton.elim t s, wf.own, List.drop_length] at member
  cases member

@[simp] theorem not_inFlight_start (store : S → K → Option V) (t : S) (k : K) :
    ¬ (start store).InFlight t k := by
  intro ⟨s, v, member⟩
  simp [start] at member

/-- A server never receives what it wrote itself. -/
theorem apart_of_front {n : Net S K V} (wf : n.WellFormed) {t s : S} {e : K × V}
    {rest : List (K × V)} (front : (n.log s).drop (n.seen t s) = e :: rest) : t ≠ s := by
  rintro rfl
  rw [wf.own, List.drop_length] at front
  cases front

/-- The replayed key was in flight to the server that received it. -/
theorem inFlight_of_front {n : Net S K V} {t s : S} {k : K} {v : V} {rest : List (K × V)}
    (front : (n.log s).drop (n.seen t s) = (k, v) :: rest) : n.InFlight t k :=
  ⟨s, v, by rw [front]; exact List.mem_cons_self⟩

theorem mem_log_of_front {n : Net S K V} {t s : S} {e : K × V} {rest : List (K × V)}
    (front : (n.log s).drop (n.seen t s) = e :: rest) : e ∈ n.log s :=
  List.mem_of_mem_drop (by rw [front]; exact List.mem_cons_self)

/-- A key that only the log of `s` mentions. The copy at `s` holds the last value
written, and every server without an entry in flight agrees with it. -/
structure Tracks (n : Net S K V) (k : K) (s : S) : Prop where
  only : ∀ o v, (k, v) ∈ n.log o → o = s
  latest : ∀ front back v, n.log s = front ++ (k, v) :: back → (∀ w, (k, w) ∉ back) →
    n.store s k = some v
  agree : ∀ t, ¬ n.InFlight t k → n.store t k = n.store s k

theorem Tracks.not_inFlight_self {n : Net S K V} {k : K} {s : S} (tracks : n.Tracks k s)
    (wf : n.WellFormed) : ¬ n.InFlight s k := by
  intro ⟨o, v, member⟩
  have origin := tracks.only o v (List.mem_of_mem_drop member)
  subst origin
  rw [wf.own, List.drop_length] at member
  cases member

theorem tracks_start {store : S → K → Option V} {k : K} {s : S}
    (same : ∀ t, store t k = store s k) : (start store).Tracks k s := by
  refine ⟨?_, ?_, fun t _ => same t⟩
  · intro o v member
    cases member
  · intro front back v split
    simp [start] at split

/-- A server that has seen a log up to a point past which the key does not occur
has nothing in flight for it. -/
theorem Tracks.quiet_of_seen {n : Net S K V} {k : K} {s : S} (tracks : n.Tracks k s)
    {t : S} {mark : Nat} (past : ∀ v, (k, v) ∉ (n.log s).drop mark)
    (reached : mark ≤ n.seen t s) : ¬ n.InFlight t k := by
  intro ⟨o, v, member⟩
  have origin := tracks.only o v (List.mem_of_mem_drop member)
  subst origin
  apply past v
  rw [← Nat.add_sub_cancel' reached, ← List.drop_drop] at member
  exact List.mem_of_mem_drop member

variable [DecidableEq S] [DecidableEq K]

def write (n : Net S K V) (s : S) (k : K) (v : V) : Net S K V where
  store := Function.update n.store s (Function.update (n.store s) k (some v))
  log := Function.update n.log s (n.log s ++ [(k, v)])
  seen := Function.update n.seen s
    (Function.update (n.seen s) s ((n.log s).length + 1))

/-- The copy at `t` is overwritten by an entry of the log of `s`. -/
def replay (n : Net S K V) (t s : S) (k : K) (v : V) : Net S K V where
  store := Function.update n.store t (Function.update (n.store t) k (some v))
  log := n.log
  seen := Function.update n.seen t (Function.update (n.seen t) s (n.seen t s + 1))

/-- The oldest entry of the log of `s` that `t` has not seen is replayed there. -/
def deliver (n : Net S K V) (t s : S) : Option (Net S K V) :=
  match (n.log s)[n.seen t s]? with
  | some (k, v) => some (n.replay t s k v)
  | none => none

theorem deliver_cases {n m : Net S K V} {t s : S} (done : n.deliver t s = some m) :
    ∃ k v, (n.log s).drop (n.seen t s) = (k, v) :: (n.log s).drop (n.seen t s + 1) ∧
      m = n.replay t s k v := by
  unfold deliver at done
  split at done
  · rename_i k v found
    obtain ⟨bound, entry⟩ := List.getElem?_eq_some_iff.mp found
    refine ⟨k, v, ?_, (Option.some.inj done).symm⟩
    rw [List.drop_eq_getElem_cons bound, entry]
  · cases done

@[simp] theorem write_store_self (n : Net S K V) (s : S) (k : K) (v : V) :
    (n.write s k v).store s k = some v := by
  simp [write]

theorem write_store_other_key (n : Net S K V) (s t : S) {k key : K} (v : V)
    (other : key ≠ k) : (n.write s k v).store t key = n.store t key := by
  by_cases same : t = s
  · subst same
    simp [write, other]
  · simp [write, same]

theorem write_store_other_server (n : Net S K V) {s t : S} (k key : K) (v : V)
    (other : t ≠ s) : (n.write s k v).store t key = n.store t key := by
  simp [write, other]

@[simp] theorem replay_store_self (n : Net S K V) (t s : S) (k : K) (v : V) :
    (n.replay t s k v).store t k = some v := by
  simp [replay]

theorem replay_store_other_key (n : Net S K V) (t s r : S) {k key : K} (v : V)
    (other : key ≠ k) : (n.replay t s k v).store r key = n.store r key := by
  by_cases same : r = t
  · subst same
    simp [replay, other]
  · simp [replay, same]

theorem replay_store_other_server (n : Net S K V) {t r : S} (s : S) (k key : K) (v : V)
    (other : r ≠ t) : (n.replay t s k v).store r key = n.store r key := by
  simp [replay, other]

/-- Keys are never removed. -/
theorem write_store_ne_none {n : Net S K V} (s : S) {t : S} (k : K) {key : K} (v : V)
    (old : n.store t key ≠ none) : (n.write s k v).store t key ≠ none := by
  by_cases server : t = s
  · by_cases same : key = k
    · rw [server, same, write_store_self]
      exact Option.some_ne_none v
    · rw [write_store_other_key n s t v same]
      exact old
  · rw [write_store_other_server n k key v server]
    exact old

theorem replay_store_ne_none {n : Net S K V} (t s : S) {r : S} (k : K) {key : K} (v : V)
    (old : n.store r key ≠ none) : (n.replay t s k v).store r key ≠ none := by
  by_cases server : r = t
  · by_cases same : key = k
    · rw [server, same, replay_store_self]
      exact Option.some_ne_none v
    · rw [replay_store_other_key n t s r v same]
      exact old
  · rw [replay_store_other_server n s k key v server]
    exact old

theorem write_log_self (n : Net S K V) (s : S) (k : K) (v : V) :
    (n.write s k v).log s = n.log s ++ [(k, v)] := by
  simp [write]

theorem write_log_other (n : Net S K V) {s o : S} (k : K) (v : V) (other : o ≠ s) :
    (n.write s k v).log o = n.log o := by
  simp [write, other]

theorem mem_write_log (n : Net S K V) (s o : S) (k : K) (v : V) (e : K × V) :
    e ∈ (n.write s k v).log o ↔ e ∈ n.log o ∨ (o = s ∧ e = (k, v)) := by
  by_cases same : o = s
  · subst same
    simp [write]
  · simp [write, same]

theorem write_wellFormed {n : Net S K V} (wf : n.WellFormed) (s : S) (k : K) (v : V) :
    (n.write s k v).WellFormed := by
  constructor
  · intro o
    by_cases same : o = s
    · subst same
      simp [write]
    · simp [write, same, wf.own o]
  · intro t o
    have old := wf.bounded t o
    by_cases atServer : t = s <;> by_cases same : o = s
    · subst atServer same
      simp [write]
    · simpa [write, atServer, same] using wf.bounded s o
    · subst same
      simp only [write, Function.update_self, ne_eq, atServer, not_false_eq_true,
        Function.update_of_ne, List.length_append, List.length_cons, List.length_nil]
      omega
    · simpa [write, atServer, same] using old

theorem replay_wellFormed {n : Net S K V} (wf : n.WellFormed) {t s : S} {k : K} {v : V}
    (front : (n.log s).drop (n.seen t s) = (k, v) :: (n.log s).drop (n.seen t s + 1)) :
    (n.replay t s k v).WellFormed := by
  have room : n.seen t s < (n.log s).length := by
    by_contra full
    rw [List.drop_eq_nil_of_le (by omega)] at front
    cases front
  have apart : t ≠ s := by
    rintro rfl
    have := wf.own t
    omega
  constructor
  · intro o
    by_cases same : o = t
    · subst same
      simpa [replay, apart] using wf.own o
    · simpa [replay, same] using wf.own o
  · intro r o
    have old := wf.bounded r o
    by_cases receiver : r = t <;> by_cases origin : o = s
    · subst receiver origin
      simpa [replay, Nat.succ_le_iff] using room
    · simpa [replay, receiver, origin] using wf.bounded t o
    · simpa [replay, receiver] using old
    · simpa [replay, receiver] using old

theorem inFlight_write {n : Net S K V} (wf : n.WellFormed) (s t : S) (k key : K) (v : V) :
    (n.write s k v).InFlight t key ↔ n.InFlight t key ∨ (key = k ∧ t ≠ s) := by
  constructor
  · intro ⟨o, w, member⟩
    by_cases origin : o = s
    · subst origin
      by_cases receiver : t = o
      · subst receiver
        simp [write] at member
      · simp only [write, Function.update_self, ne_eq, receiver, not_false_eq_true,
          Function.update_of_ne] at member
        rw [List.drop_append_of_le_length (wf.bounded t o)] at member
        rcases List.mem_append.mp member with old | fresh
        · exact Or.inl ⟨o, w, old⟩
        · simp only [List.mem_singleton, Prod.mk.injEq] at fresh
          exact Or.inr ⟨fresh.1, receiver⟩
    · refine Or.inl ⟨o, w, ?_⟩
      by_cases receiver : t = s
      · subst receiver
        simpa [write, origin] using member
      · simpa [write, origin, receiver] using member
  · rintro (⟨o, w, member⟩ | ⟨rfl, receiver⟩)
    · by_cases origin : o = s
      · subst origin
        by_cases receiver : t = o
        · subst receiver
          rw [wf.own, List.drop_length] at member
          cases member
        · refine ⟨o, w, ?_⟩
          simp only [write, Function.update_self, ne_eq, receiver, not_false_eq_true,
            Function.update_of_ne]
          rw [List.drop_append_of_le_length (wf.bounded t o)]
          exact List.mem_append_left _ member
      · refine ⟨o, w, ?_⟩
        by_cases receiver : t = s
        · subst receiver
          simpa [write, origin] using member
        · simpa [write, origin, receiver] using member
    · refine ⟨s, v, ?_⟩
      simp only [write, Function.update_self, ne_eq, receiver, not_false_eq_true,
        Function.update_of_ne]
      rw [List.drop_append_of_le_length (wf.bounded t s)]
      exact List.mem_append_right _ (by simp)

theorem inFlight_write_other_key {n : Net S K V} (wf : n.WellFormed) (s t : S) {k key : K} (v : V)
    (other : key ≠ k) : (n.write s k v).InFlight t key ↔ n.InFlight t key := by
  rw [inFlight_write wf]
  exact or_iff_left fun both => other both.1

theorem inFlight_of_replay {n : Net S K V} {t s r : S} {k key : K} {v : V}
    (pending : (n.replay t s k v).InFlight r key) : n.InFlight r key := by
  obtain ⟨o, w, member⟩ := pending
  refine ⟨o, w, ?_⟩
  by_cases receiver : r = t
  · subst receiver
    by_cases origin : o = s
    · subst origin
      simp only [replay, Function.update_self] at member
      rw [← List.drop_drop] at member
      exact List.mem_of_mem_drop member
    · simpa [replay, origin] using member
  · simpa [replay, receiver] using member

theorem inFlight_replay_other_server {n : Net S K V} {t s r : S} {k key : K} {v : V}
    (other : r ≠ t) (pending : n.InFlight r key) : (n.replay t s k v).InFlight r key := by
  obtain ⟨o, w, member⟩ := pending
  exact ⟨o, w, by simpa [replay, other] using member⟩

theorem inFlight_replay_other_key {n : Net S K V} {t s r : S} {k key : K} {v : V}
    (front : (n.log s).drop (n.seen t s) = (k, v) :: (n.log s).drop (n.seen t s + 1))
    (other : key ≠ k) (pending : n.InFlight r key) : (n.replay t s k v).InFlight r key := by
  by_cases receiver : r = t
  · subst receiver
    obtain ⟨o, w, member⟩ := pending
    refine ⟨o, w, ?_⟩
    by_cases origin : o = s
    · subst origin
      rw [front] at member
      rcases List.mem_cons.mp member with same | later
      · exact absurd (congrArg Prod.fst same) other
      · simpa [replay] using later
    · simpa [replay, origin] using member
  · exact inFlight_replay_other_server receiver pending

/-- Only the replay of an entry for a key can end its being in flight. -/
theorem settled_by_replay {n : Net S K V} {t s r : S} {k key : K} {v : V}
    (front : (n.log s).drop (n.seen t s) = (k, v) :: (n.log s).drop (n.seen t s + 1))
    (pending : n.InFlight r key) (quiet : ¬ (n.replay t s k v).InFlight r key) :
    r = t ∧ key = k := by
  constructor
  · by_contra other
    exact quiet (inFlight_replay_other_server other pending)
  · by_contra other
    exact quiet (inFlight_replay_other_key front other pending)

/-- Where nothing is in flight for a key, a replay leaves the copy alone. -/
theorem replay_store_of_not_inFlight {n : Net S K V} {t s r : S} {k key : K} {v : V}
    {rest : List (K × V)} (front : (n.log s).drop (n.seen t s) = (k, v) :: rest)
    (quiet : ¬ n.InFlight r key) : (n.replay t s k v).store r key = n.store r key := by
  by_cases receiver : r = t
  · subst receiver
    apply replay_store_other_key
    rintro rfl
    exact quiet (inFlight_of_front front)
  · exact replay_store_other_server n s k key v receiver

theorem Tracks.write_self {n : Net S K V} {k : K} {s : S} (tracks : n.Tracks k s)
    (wf : n.WellFormed) (v : V) : (n.write s k v).Tracks k s := by
  refine ⟨?_, ?_, ?_⟩
  · intro o w member
    rcases (mem_write_log n s o k v (k, w)).mp member with old | ⟨same, _⟩
    · exact tracks.only o w old
    · exact same
  · intro front back w split last
    rw [write_log_self] at split
    rw [write_store_self]
    rcases List.eq_nil_or_concat back with rfl | ⟨init, final, rfl⟩
    · have tails := (List.append_inj' split rfl).2
      simp only [List.cons.injEq, Prod.mk.injEq, true_and, and_true] at tails
      rw [tails]
    · rw [List.concat_eq_append, ← List.cons_append, ← List.append_assoc] at split
      have tails := (List.append_inj' split rfl).2
      simp only [List.cons.injEq, and_true] at tails
      exact absurd (by simp [← tails]) (last v)
  · intro t quiet
    by_cases same : t = s
    · rw [same]
    · exact absurd ((inFlight_write wf s t k k v).mpr (Or.inr ⟨rfl, same⟩)) quiet

theorem Tracks.write_other {n : Net S K V} {k : K} {s : S} (tracks : n.Tracks k s)
    (wf : n.WellFormed) (o : S) {key : K} (v : V) (other : k ≠ key) :
    (n.write o key v).Tracks k s := by
  refine ⟨?_, ?_, ?_⟩
  · intro p w member
    rcases (mem_write_log n o p key v (k, w)).mp member with old | ⟨_, same⟩
    · exact tracks.only p w old
    · exact absurd (congrArg Prod.fst same) other
  · intro front back w split last
    rw [write_store_other_key n o s v other]
    by_cases same : s = o
    · subst same
      rw [write_log_self] at split
      rcases List.eq_nil_or_concat back with rfl | ⟨init, final, rfl⟩
      · have tails := (List.append_inj' split rfl).2
        simp only [List.cons.injEq, Prod.mk.injEq, and_true] at tails
        exact absurd tails.1.symm other
      · rw [List.concat_eq_append, ← List.cons_append, ← List.append_assoc] at split
        have heads := (List.append_inj' split rfl).1
        refine tracks.latest front init w heads fun x member => last x ?_
        simp [member]
    · rw [write_log_other n key v same] at split
      exact tracks.latest front back w split last
  · intro t quiet
    rw [write_store_other_key n o t v other, write_store_other_key n o s v other]
    apply tracks.agree t
    intro pending
    exact quiet ((inFlight_write wf o t key k v).mpr (Or.inl pending))

theorem Tracks.replay {n : Net S K V} {k : K} {s : S} (tracks : n.Tracks k s)
    (wf : n.WellFormed) {t o : S} {key : K} {v : V}
    (front : (n.log o).drop (n.seen t o) = (key, v) :: (n.log o).drop (n.seen t o + 1)) :
    (n.replay t o key v).Tracks k s := by
  have home : (n.replay t o key v).store s k = n.store s k :=
    replay_store_of_not_inFlight front (tracks.not_inFlight_self wf)
  refine ⟨tracks.only, ?_, ?_⟩
  · intro before back w split last
    rw [home]
    exact tracks.latest before back w split last
  · intro r quiet
    rw [home]
    by_cases pending : n.InFlight r k
    · obtain ⟨receiver, sameKey⟩ := settled_by_replay front pending quiet
      subst receiver sameKey
      have origin := tracks.only o v (mem_log_of_front front)
      subst origin
      rw [replay_store_self]
      refine (tracks.latest ((n.log o).take (n.seen r o)) ((n.log o).drop (n.seen r o + 1)) v
        ?_ ?_).symm
      · rw [← front, List.take_append_drop]
      · intro w member
        exact quiet ⟨o, w, by simpa [Net.replay] using member⟩
    · rw [replay_store_of_not_inFlight front pending]
      exact tracks.agree r pending

/-- Every copy is as it was at the start, or comes from an entry that has taken
effect there. -/
def Traced (n : Net S K V) (store : S → K → Option V) : Prop :=
  ∀ t k, n.store t k = store t k ∨
    ∃ o v, (k, v) ∈ (n.log o).take (n.seen t o) ∧ n.store t k = some v

theorem Traced.write {n : Net S K V} {store : S → K → Option V} (traced : n.Traced store)
    (wf : n.WellFormed) (s : S) (k : K) (v : V) : (n.write s k v).Traced store := by
  intro t key
  by_cases server : t = s
  · subst server
    by_cases same : key = k
    · subst same
      refine Or.inr ⟨t, v, ?_, write_store_self n t key v⟩
      simp [Net.write, List.take_of_length_le]
    · rw [write_store_other_key n t t v same]
      refine (traced t key).imp_right ?_
      intro ⟨o, w, member, stored⟩
      refine ⟨o, w, ?_, stored⟩
      by_cases origin : o = t
      · subst origin
        rw [wf.own, List.take_length] at member
        simp [Net.write, List.take_of_length_le, member]
      · simpa [Net.write, origin] using member
  · rw [write_store_other_server n k key v server]
    refine (traced t key).imp_right ?_
    intro ⟨o, w, member, stored⟩
    refine ⟨o, w, ?_, stored⟩
    by_cases origin : o = s
    · subst origin
      simp only [Net.write, Function.update_self, ne_eq, server, not_false_eq_true,
        Function.update_of_ne]
      rwa [List.take_append_of_le_length (wf.bounded t o)]
    · simpa [Net.write, origin, server] using member

theorem Traced.replay {n : Net S K V} {store : S → K → Option V} (traced : n.Traced store)
    {t s : S} {k : K} {v : V}
    (front : (n.log s).drop (n.seen t s) = (k, v) :: (n.log s).drop (n.seen t s + 1)) :
    (n.replay t s k v).Traced store := by
  have grown : ∀ r o, (n.log o).take (n.seen r o) ⊆
      (n.log o).take ((n.replay t s k v).seen r o) := by
    intro r o
    apply List.take_subset_take_left
    by_cases receiver : r = t
    · subst receiver
      by_cases origin : o = s
      · subst origin
        simp [Net.replay]
      · simp [Net.replay, origin]
    · simp [Net.replay, receiver]
  intro r key
  by_cases here : r = t ∧ key = k
  · obtain ⟨receiver, same⟩ := here
    subst receiver same
    refine Or.inr ⟨s, v, ?_, replay_store_self n r s key v⟩
    have split : (n.log s).take (n.seen r s + 1) = (n.log s).take (n.seen r s) ++ [(key, v)] := by
      rw [List.take_add, front]
      rfl
    simp [Net.replay, split]
  · have kept : (n.replay t s k v).store r key = n.store r key := by
      by_cases receiver : r = t
      · exact replay_store_other_key n t s r v fun same => here ⟨receiver, same⟩
      · exact replay_store_other_server n s k key v receiver
    rw [kept]
    refine (traced r key).imp_right ?_
    intro ⟨o, w, member, stored⟩
    exact ⟨o, w, grown r o member, stored⟩

/-- As far as `s` and `t` know, the last write to `k` was `v` at `s`. -/
structure Newest (n : Net S K V) (k : K) (s : S) (v : V) (t : S) : Prop where
  settled : ¬ n.InFlight s k
  here : n.store s k = some v
  there : ¬ n.InFlight t k → n.store t k = some v

theorem Newest.of_write {n : Net S K V} (wf : n.WellFormed) {k : K} {s : S} (v : V) (t : S)
    (clear : ¬ n.InFlight s k) : (n.write s k v).Newest k s v t := by
  refine ⟨?_, write_store_self n s k v, ?_⟩
  · rw [inFlight_write wf]
    intro pending
    rcases pending with old | ⟨_, apart⟩
    · exact clear old
    · exact apart rfl
  · intro quiet
    by_cases same : t = s
    · rw [same]
      exact write_store_self n s k v
    · exact absurd ((inFlight_write wf s t k k v).mpr (Or.inr ⟨rfl, same⟩)) quiet

theorem Newest.write_other {n : Net S K V} {k : K} {s t : S} {v : V} (newest : n.Newest k s v t)
    (wf : n.WellFormed) (o : S) {key : K} (w : V) (other : k ≠ key) :
    (n.write o key w).Newest k s v t := by
  constructor
  · rw [inFlight_write_other_key wf o s w other]
    exact newest.settled
  · rw [write_store_other_key n o s w other]
    exact newest.here
  · rw [inFlight_write_other_key wf o t w other, write_store_other_key n o t w other]
    exact newest.there

/-- What is in flight from `s` to `t` only repeats the value. -/
theorem Newest.replay {n : Net S K V} {k : K} {s t : S} {v : V} (newest : n.Newest k s v t)
    {r o : S} {key : K} {w : V}
    (front : (n.log o).drop (n.seen r o) = (key, w) :: (n.log o).drop (n.seen r o + 1))
    (repeated : r = t → key = k → w = v) : (n.replay r o key w).Newest k s v t := by
  refine ⟨fun pending => newest.settled (inFlight_of_replay pending), ?_, ?_⟩
  · rw [replay_store_of_not_inFlight front newest.settled]
    exact newest.here
  · intro quiet
    by_cases pending : n.InFlight t k
    · obtain ⟨receiver, sameKey⟩ := settled_by_replay front pending quiet
      subst receiver sameKey
      rw [replay_store_self, repeated rfl rfl]
    · rw [replay_store_of_not_inFlight front pending]
      exact newest.there pending

/-- Server `t` has `v` under `k`, and nothing in flight would change it. -/
def Shows (n : Net S K V) (t : S) (k : K) (v : V) : Prop :=
  ¬ n.InFlight t k ∧ n.store t k = some v

theorem Shows.write_other {n : Net S K V} {t : S} {k : K} {v : V} (shows : n.Shows t k v)
    (wf : n.WellFormed) (o : S) {key : K} (w : V) (other : k ≠ key) :
    (n.write o key w).Shows t k v := by
  unfold Shows
  rw [inFlight_write_other_key wf o t w other, write_store_other_key n o t w other]
  exact shows

theorem Shows.replay {n : Net S K V} {t : S} {k : K} {v : V} (shows : n.Shows t k v) {r o : S}
    {key : K} {w : V} {rest : List (K × V)}
    (front : (n.log o).drop (n.seen r o) = (key, w) :: rest) :
    (n.replay r o key w).Shows t k v := by
  refine ⟨fun pending => shows.1 (inFlight_of_replay pending), ?_⟩
  rw [replay_store_of_not_inFlight front shows.1]
  exact shows.2

theorem Shows.of_write_other {n : Net S K V} {t o : S} {k key : K} {v w : V}
    (shows : (n.write o key w).Shows t k v) (wf : n.WellFormed) (other : k ≠ key) :
    n.Shows t k v := by
  unfold Shows at shows
  rw [inFlight_write_other_key wf o t w other, write_store_other_key n o t w other] at shows
  exact shows

theorem Shows.of_replay {n : Net S K V} {t r o : S} {k key : K} {v w : V}
    (shows : (n.replay r o key w).Shows t k v)
    (front : (n.log o).drop (n.seen r o) = (key, w) :: (n.log o).drop (n.seen r o + 1))
    (other : ¬ (t = r ∧ k = key)) : n.Shows t k v := by
  have quiet : ¬ n.InFlight t k := fun pending =>
    other (settled_by_replay front pending shows.1)
  refine ⟨quiet, ?_⟩
  rw [← replay_store_of_not_inFlight front quiet]
  exact shows.2

/-- Of two servers, only the one that wrote last can show its own value. -/
theorem not_shows_of_write {n : Net S K V} (wf : n.WellFormed) {s t : S} {k : K} {v w : V}
    (distinct : v ≠ w) : ¬ (n.write s k v).Shows t k w := by
  intro shows
  by_cases same : t = s
  · have stored := shows.2
    rw [same, write_store_self] at stored
    exact distinct (Option.some.inj stored)
  · exact shows.1 ((inFlight_write wf s t k k v).mpr (Or.inr ⟨rfl, same⟩))

end Net

end ReplicatedLog

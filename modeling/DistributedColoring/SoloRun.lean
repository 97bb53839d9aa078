import DistributedColoring.KeyNames
import DistributedColoring.Pipeline

set_option autoImplicit false

/- One client with the whole graph on one server. The orders in which the server lists
keys and neighbours leave no trace: the SETs of every run are those of the sequential
algorithm over `0 .. n - 1`. -/
namespace DistributedColoring

open CText
open GreedyColoring
open ReplicatedLog

/-- The client has all the ids of a graph on `0 .. n - 1`. -/
structure Deployment.Solo (D : Deployment 1 1) (n : ℕ) : Prop where
  keys : D.keys = List.range n
  first : ∀ c, D.firstNode c = 0
  last : ∀ c, D.lastNode c = n - 1
  inside : ∀ u v, u ∈ D.nbrs v → u < n

/-- The SETs for the nodes below `m`. -/
noncomputable def soloWrites (nbrs : ℕ → Finset ℕ) (m : ℕ) : List (Key × ℤ) :=
  (List.range m).flatMap fun v =>
    [(.color v, greedy nbrs (List.range (v + 1)) v), (.status v, 1)]

/-- The SETs for the node in hand that have been sent. -/
noncomputable def underway (nbrs : ℕ → Finset ℕ) (l : Local) : List (Key × ℤ) :=
  let color := (.color l.node, greedy nbrs (List.range (l.node + 1)) l.node)
  match l.pc with
  | .wait (.color _) => [color]
  | .set (.color _) true => [color]
  | .set .status false => [color]
  | .wait .status => [color, (.status l.node, 1)]
  | .set .status true => [color, (.status l.node, 1)]
  | _ => []

theorem soloWrites_succ (nbrs : ℕ → Finset ℕ) (m : ℕ) :
    soloWrites nbrs (m + 1) = soloWrites nbrs m ++
      [(.color m, greedy nbrs (List.range (m + 1)) m), (.status m, 1)] := by
  simp only [soloWrites, List.range_succ, List.flatMap_append, List.flatMap_cons,
    List.flatMap_nil, List.append_nil]

theorem lt_of_mem_soloWrites {nbrs : ℕ → Finset ℕ} {m v : ℕ} {x : ℤ}
    (member : (.color v, x) ∈ soloWrites nbrs m) : v < m := by
  simp only [soloWrites, List.mem_flatMap, List.mem_range, List.mem_cons, Prod.mk.injEq,
    Key.color.injEq, reduceCtorEq, false_and, List.not_mem_nil, or_false] at member
  obtain ⟨u, less, same, _⟩ := member
  omega

/-- The colours after the first `m` nodes. -/
theorem overlay_soloWrites {store : Key → Option ℤ} (nbrs : ℕ → Finset ℕ) (m : ℕ) {u : ℕ}
    (reset : store (.color u) = some 0) :
    overlay store (soloWrites nbrs m) (.color u) = some (greedy nbrs (List.range m) u) := by
  induction m with
  | zero => exact reset
  | succ m ih =>
      rw [soloWrites_succ, overlay_append]
      by_cases same : u = m
      · subst same
        simp [overlay]
      · rw [List.range_succ, greedy_snoc, turn, Function.update_of_ne same, ← ih]
        simp [overlay, same]

namespace Deployment.Solo

variable {D : Deployment 1 1} {n : ℕ}

theorem valid (solo : D.Solo n) : D.Valid :=
  ⟨solo.keys ▸ List.nodup_range, fun c d _ _ _ _ _ => Subsingleton.elim c d⟩

theorem internal (solo : D.Solo n) (c : Fin 1) {u v : ℕ} (adjacent : u ∈ D.nbrs v) :
    (D.client c).Internal u := by
  have less := solo.inside u v adjacent
  have first := solo.first c
  have last := solo.last c
  refine ⟨?_, ?_⟩
  · change D.firstNode c ≤ u
    omega
  · change (u : ℤ) ≤ D.lastNode c
    omega

/-- Positions are ids. -/
theorem node (solo : D.Solo n) {c : Fin 1} {l : Local} (shape : Shape D c l)
    (active : l.pc.Active) : l.i = l.node ∧ l.node < n := by
  have key := (shape.node active).1
  unfold Client.keyAt at key
  split at key
  · change D.keys[l.i.toNat]? = some l.node at key
    rw [solo.keys] at key
    obtain ⟨inside, same⟩ := List.getElem?_eq_some_iff.mp key
    rw [List.getElem_range] at same
    rw [List.length_range] at inside
    omega
  · cases key

end Deployment.Solo

/-- What the single client knows, and what it has done to the server. -/
structure Alone (D : Deployment 1 1) (store : Key → Option ℤ) (c t : Fin 1) (s : State 1 1) :
    Prop where
  sound : Sound D s
  free : (s.loc c).locks = []
  unlocked : (s.loc c).pc.lock? = none
  inside : ∀ u, (s.loc c).pc ≠ .getStatus u
  alive : (s.loc c).pc ≠ .crashed
  read : ∀ e ∈ (s.loc c).colors, e.2 = greedy D.nbrs (List.range (s.loc c).i.toNat) e.1
  stored : s.net.store t = overlay store (s.net.log t)
  wrote : dropRepeats (s.net.log t) =
    soloWrites D.nbrs (s.loc c).i.toNat ++ underway D.nbrs (s.loc c)
  whole : D.required = 0 → dropRepeats (s.net.log t) = s.net.log t ∧
    ∀ w, (s.loc c).pc ≠ .set w true

/-- The SETs of a client that takes no locks. -/
theorem Write.eq_of_unlocked {w : Write} (unlocked : w.lock? = none) :
    (∃ x, w = .color x) ∨ w = .status := by
  cases w with
  | flag lock => cases unlocked
  | turn lock => cases unlocked
  | release lock => cases unlocked
  | color x => exact Or.inl ⟨x, rfl⟩
  | status => exact Or.inr rfl

/-- After `write_with_wait` the client does not send the same SET again. -/
theorem written_ne_resent (C : Client) (l : Local) (w w' : Write) :
    (C.written l w).pc ≠ .set w' true := by
  have released : ∀ l', Released C l l' → l'.pc ≠ .set w' true := by
    intro l' released
    cases released with
    | unlock lock rest split => simp
    | next l' empty started => cases started <;> simp
  cases w with
  | flag lock => simp [Client.written]
  | turn lock => simp [Client.written]
  | color x => simp [Client.written]
  | status => exact released _ (releaseNext_released C l)
  | release lock => exact released _ (releaseNext_released C l)

theorem Resumed.ne_resent {C : Client} {l l' : Local} (resumed : Resumed C l l') (w : Write) :
    l'.pc ≠ .set w true := by
  cases resumed <;> simp

/-- Where WAIT asks for nothing, no SET is sent twice. -/
theorem Quiet.ne_resent {D : Deployment 1 1} {s : State 1 1} {c : Fin 1} {move : Move} {l' : Local}
    (zero : D.required = 0) (quiet : Quiet D s c move l')
    (taken : D.clientMove c (s.loc c) (s.get (D.server c))
      (D.plain + s.caughtUp c (D.server c)) move = some (l', none)) (w : Write) :
    l'.pc ≠ .set w true := by
  cases quiet with
  | neighbours reply pc members => simp
  | boundary reply l' pc resumed => exact resumed.ne_resent w
  | mustLock u pc status => simp
  | skipLock u pc status => simp
  | color u l' pc resumed => exact resumed.ne_resent w
  | resend w' acks pc =>
      intro again
      have required : (D.client c).required = 0 := zero
      simp only [Deployment.clientMove, pc, Client.onWait, acknowledgedReplicas, required,
        Nat.not_lt_zero, if_false] at taken
      split at taken
      · have same := congrArg Local.pc (congrArg Prod.fst (Option.some.inj taken))
        exact written_ne_resent _ _ _ _ same
      · cases taken
  | written w' acks pc enough bound => exact written_ne_resent _ _ _ _
  | read lock inLoop r oldFlag oldTurn newFlag newTurn pc answer =>
      have spun := onLockReads_spun (s.loc c) lock inLoop newFlag newTurn
      revert spun
      generalize Client.onLockReads (s.loc c) lock inLoop newFlag newTurn = l'
      intro spun
      cases spun <;> simp

theorem Deployment.Solo.keyAt_ne_none {D : Deployment 1 1} {n : ℕ} (solo : D.Solo n) {c : Fin 1}
    {i : ℤ} (low : 0 ≤ i) (high : i ≤ D.lastNode c) : (D.client c).keyAt i ≠ none := by
  have last := solo.last c
  have keys : (D.client c).keys = List.range n := solo.keys
  rw [Client.keyAt, if_pos low, keys, ne_eq, List.getElem?_eq_none_iff, List.length_range]
  omega

/-- How far the client is from the end of the node in hand. -/
def phase (n : ℕ) (l : Local) : ℕ :=
  match l.pc with
  | .getAllNeighbours => n + 6
  | .checkBoundaryNode => l.todo.length + 5
  | .getNodeColor _ => l.todo.length + 5
  | .set (.color _) _ => 4
  | .wait (.color _) => 3
  | .set .status _ => 2
  | .wait .status => 1
  | _ => 0

/-- How far it is from the end of its nodes. -/
def remaining (n : ℕ) (l : Local) : ℕ :=
  if l.pc = .finished then 0 else (n - 1 - l.i.toNat) * (n + 8) + phase n l

namespace Alone

variable {D : Deployment 1 1} {n : ℕ} {store : Key → Option ℤ} {c t : Fin 1} {s : State 1 1}

/-- The colour of every node, read before the colour SET of the node in hand. -/
theorem color_read (inv : Alone D store c t s) (nothing : underway D.nbrs (s.loc c) = []) {u : ℕ}
    (reset : store (.color u) = some 0) :
    s.net.store t (.color u) = some (greedy D.nbrs (List.range (s.loc c).i.toNat) u) := by
  have wrote := inv.wrote
  rw [nothing, List.append_nil] at wrote
  rw [inv.stored, ← overlay_dropRepeats, wrote]
  exact overlay_soloWrites D.nbrs _ reset

/-- The colour that is sent is the one of the sequential algorithm. -/
theorem color_sent (inv : Alone D store c t s) (solo : D.Solo n) {x : ℤ}
    (pc : (∃ again, (s.loc c).pc = .set (.color x) again) ∨ (s.loc c).pc = .wait (.color x)) :
    greedy D.nbrs (List.range ((s.loc c).node + 1)) (s.loc c).node = x := by
  have shape := inv.sound.shape c
  have active : (s.loc c).pc.Active := by
    rcases pc with ⟨again, pc⟩ | pc <;> simp [pc, Pc.Active]
  obtain ⟨position, _⟩ := solo.node shape active
  obtain ⟨least, done⟩ := shape.chosen x pc
  have current : (s.loc c).pc.current = [] := by
    rcases pc with ⟨again, pc⟩ | pc <;> rw [pc] <;> rfl
  have all : ∀ u, u ∈ (s.loc c).visited ↔ u ∈ D.nbrs (s.loc c).node := by
    intro u
    have both := (shape.ordered active (by rcases pc with ⟨again, pc⟩ | pc <;> simp [pc])).2 u
    simpa [Local.neighbourhood, done, current] using both
  have values : ∀ e ∈ (s.loc c).colors, e.2 = greedy D.nbrs (List.range (s.loc c).node) e.1 := by
    intro e member
    have value := inv.read e member
    rwa [position, Int.toNat_natCast] at value
  rw [List.range_succ, greedy_snoc, turn, Function.update_self]
  apply leastFree_eq
  have used : {y | y ∈ (s.loc c).colors.map Prod.snd} = (((D.nbrs (s.loc c).node).image
      (greedy D.nbrs (List.range (s.loc c).node)) : Finset ℤ) : Set ℤ) := by
    ext y
    rw [Finset.mem_coe, Finset.mem_image, Set.mem_ofPred_eq, List.mem_map]
    constructor
    · rintro ⟨e, member, same⟩
      exact ⟨e.1, (all e.1).mp (List.mem_map_of_mem member), (values e member).symm.trans same⟩
    · rintro ⟨u, adjacent, same⟩
      obtain ⟨e, member, first⟩ := List.mem_map.mp ((all u).mpr adjacent)
      refine ⟨e, member, ?_⟩
      rw [values e member, first, same]
  rw [← used]
  exact least

/-- A step of the client that sends no SET. -/
theorem put {l : Local} (inv : Alone D store c t s) (sound : Sound D (s.put c l))
    (free : l.locks = []) (unlocked : l.pc.lock? = none) (inside : ∀ u, l.pc ≠ .getStatus u)
    (alive : l.pc ≠ .crashed)
    (read : ∀ e ∈ l.colors, e.2 = greedy D.nbrs (List.range l.i.toNat) e.1)
    (same : soloWrites D.nbrs l.i.toNat ++ underway D.nbrs l =
      soloWrites D.nbrs (s.loc c).i.toNat ++ underway D.nbrs (s.loc c))
    (once : D.required = 0 → ∀ w, l.pc ≠ .set w true) : Alone D store c t (s.put c l) := by
  refine ⟨sound, ?_, ?_, ?_, ?_, ?_, inv.stored, ?_, fun zero => ⟨(inv.whole zero).1, ?_⟩⟩
  all_goals rw [put_loc_self]
  · exact free
  · exact unlocked
  · exact inside
  · exact alive
  · exact read
  · exact inv.wrote.trans same.symm
  · exact once zero

/-- Going on to the next neighbour, or to the choice of the colour. -/
theorem resumed {l l' : Local} (inv : Alone D store c t s) (solo : D.Solo n)
    (sound : Sound D (s.put c l')) (resumed : Resumed (D.client c) l l')
    (free : l.locks = []) (position : l.i = (s.loc c).i)
    (adjacent : ∀ u ∈ l.todo, u ∈ D.nbrs (s.loc c).node)
    (read : ∀ e ∈ l.colors, e.2 = greedy D.nbrs (List.range l.i.toNat) e.1)
    (nothing : underway D.nbrs (s.loc c) = []) : Alone D store c t (s.put c l') := by
  cases resumed with
  | choose x empty least =>
      refine inv.put sound free rfl (by simp) (by simp) read ?_ (by simp)
      rw [nothing, ← position]
      rfl
  | inside u rest split range =>
      refine inv.put sound free rfl (by simp) (by simp) read ?_ (by simp)
      rw [nothing, ← position]
      rfl
  | outside u rest split range =>
      have member : u ∈ l.todo := by simp [split]
      exact absurd (solo.internal c (adjacent u member)) range

/-- The next turn of `main`. -/
theorem started (inv : Alone D store c t s) (solo : D.Solo n) {i : ℤ} {l : Local} (low : 0 ≤ i)
    (started : Started (D.client c) i l) (sound : Sound D (s.put c l))
    (wrote : soloWrites D.nbrs i.toNat =
      soloWrites D.nbrs (s.loc c).i.toNat ++ underway D.nbrs (s.loc c)) :
    Alone D store c t (s.put c l) := by
  cases started with
  | node v bound key =>
      refine inv.put sound rfl rfl (by simp) (by simp) (by simp) ?_ (by simp)
      exact (List.append_nil _).trans wrote
  | crash bound key => exact absurd key (solo.keyAt_ne_none low bound)
  | finish bound =>
      refine inv.put sound rfl rfl (by simp) (by simp) (by simp) ?_ (by simp)
      exact (List.append_nil _).trans wrote

theorem written_status (inv : Alone D store c t s) :
    (D.client c).written (s.loc c) .status = (D.client c).processAt ((s.loc c).i + 1) := by
  simp only [Client.written, Client.releaseNext, inv.free]

theorem written (inv : Alone D store c t s) (solo : D.Solo n) {w : Write}
    (pc : (s.loc c).pc = .wait w)
    (sound : Sound D (s.put c ((D.client c).written (s.loc c) w))) :
    Alone D store c t (s.put c ((D.client c).written (s.loc c) w)) := by
  have unlocked := inv.unlocked
  obtain ⟨position, _⟩ := solo.node (inv.sound.shape c) (by simp [pc, Pc.Active])
  rw [pc] at unlocked
  rcases Write.eq_of_unlocked unlocked with ⟨x, rfl⟩ | rfl
  · refine inv.put sound inv.free rfl (by simp [Client.written]) (by simp [Client.written])
      inv.read ?_ (by simp [Client.written])
    simp only [underway, Client.written, pc]
  · have after : ((s.loc c).i + 1).toNat = (s.loc c).i.toNat + 1 := by omega
    rw [inv.written_status] at sound ⊢
    refine inv.started solo (by omega) (processAt_started _ _) sound ?_
    rw [after, soloWrites_succ]
    simp only [underway, pc, position, Int.toNat_natCast]

/-- A SET joins the log; it is dropped again if it repeats the last one. -/
theorem send {w : Write} {again : Bool} (inv : Alone D store c t s)
    (pc : (s.loc c).pc = .set w again) (unlocked : w.lock? = none)
    (sound : Sound D ((s.send c t w again).put c { s.loc c with pc := .wait w }))
    (wrote : (if (dropRepeats (s.net.log t)).getLast? = some (w.command (s.loc c).node) then
        dropRepeats (s.net.log t)
      else dropRepeats (s.net.log t) ++ [w.command (s.loc c).node]) =
      soloWrites D.nbrs (s.loc c).i.toNat ++ underway D.nbrs { s.loc c with pc := .wait w })
    (new : again = false →
      (dropRepeats (s.net.log t)).getLast? ≠ some (w.command (s.loc c).node)) :
    Alone D store c t ((s.send c t w again).put c { s.loc c with pc := .wait w }) := by
  have log : ((s.send c t w again).put c { s.loc c with pc := .wait w }).net.log t =
      s.net.log t ++ [w.command (s.loc c).node] := by
    rw [put_net, send_net, Net.write_log_self]
  refine ⟨sound, ?_, ?_, ?_, ?_, ?_, ?_, ?_, ?_⟩
  · rw [put_loc_self]
    exact inv.free
  · rw [put_loc_self]
    exact unlocked
  · rw [put_loc_self]
    simp
  · rw [put_loc_self]
    simp
  · rw [put_loc_self]
    exact inv.read
  · rw [log, overlay_concat, ← inv.stored, put_net, send_net]
    exact Function.update_self _ _ _
  · rw [log, dropRepeats_concat, put_loc_self]
    exact wrote
  · intro zero
    have first : again = false := by
      cases again with
      | false => rfl
      | true => exact absurd pc ((inv.whole zero).2 w)
    rw [log, dropRepeats_concat, if_neg (new first), (inv.whole zero).1, put_loc_self]
    exact ⟨rfl, by simp⟩

theorem sent (inv : Alone D store c t s) (solo : D.Solo n) {w : Write} {again : Bool}
    (pc : (s.loc c).pc = .set w again)
    (sound : Sound D ((s.send c t w again).put c { s.loc c with pc := .wait w })) :
    Alone D store c t ((s.send c t w again).put c { s.loc c with pc := .wait w }) := by
  have unlocked := inv.unlocked
  obtain ⟨position, _⟩ := solo.node (inv.sound.shape c) (by simp [pc, Pc.Active])
  rw [pc] at unlocked
  have wrote := inv.wrote
  rcases Write.eq_of_unlocked unlocked with ⟨x, rfl⟩ | rfl
  · have value := inv.color_sent solo (Or.inl ⟨again, pc⟩)
    have command : (Write.color x).command (s.loc c).node = (.color (s.loc c).node,
        greedy D.nbrs (List.range ((s.loc c).node + 1)) (s.loc c).node) := by
      rw [value]
      rfl
    cases again with
    | false =>
        have before : dropRepeats (s.net.log t) = soloWrites D.nbrs (s.loc c).i.toNat := by
          simpa [underway, pc] using wrote
        have new : (dropRepeats (s.net.log t)).getLast? ≠
            some ((Write.color x).command (s.loc c).node) := by
          intro last
          rw [before, command] at last
          have less := lt_of_mem_soloWrites (List.mem_of_getLast? last)
          omega
        refine inv.send pc unlocked sound ?_ fun _ => new
        rw [if_neg new, before, command]
        rfl
    | true =>
        refine inv.send pc unlocked sound ?_ (by simp)
        rw [wrote, command]
        simp [underway, pc]
  · have command : Write.status.command (s.loc c).node = (.status (s.loc c).node, 1) := rfl
    cases again with
    | false =>
        have before : dropRepeats (s.net.log t) = soloWrites D.nbrs (s.loc c).i.toNat ++
            [(.color (s.loc c).node,
              greedy D.nbrs (List.range ((s.loc c).node + 1)) (s.loc c).node)] := by
          simpa only [underway, pc] using wrote
        have new : (dropRepeats (s.net.log t)).getLast? ≠
            some (Write.status.command (s.loc c).node) := by
          simp [before, command]
        refine inv.send pc unlocked sound ?_ fun _ => new
        rw [if_neg new, before, command]
        simp [underway]
    | true =>
        refine inv.send pc unlocked sound ?_ (by simp)
        rw [wrote, command]
        simp [underway, pc]

theorem quiet {move : Move} {l' : Local} (inv : Alone D store c t s) (solo : D.Solo n)
    (reset : ∀ u < n, store (.color u) = some 0) (quiet : Quiet D s c move l')
    (once : D.required = 0 → ∀ w, l'.pc ≠ .set w true) (sound : Sound D (s.put c l')) :
    Alone D store c t (s.put c l') := by
  have shape := inv.sound.shape c
  have unlocked := inv.unlocked
  cases quiet with
  | neighbours reply pc members =>
      refine inv.put sound inv.free rfl (by simp) (by simp) inv.read ?_ (by simp)
      simp only [underway, pc]
  | boundary reply l' pc resumed =>
      refine inv.resumed solo sound resumed inv.free rfl ?_ inv.read (by simp only [underway, pc])
      intro u member
      apply ((shape.ordered (by simp [pc, Pc.Active]) (by simp [pc])).2 u).mp
      simp [Local.neighbourhood, member]
  | mustLock u pc status => exact absurd pc (inv.inside u)
  | skipLock u pc status => exact absurd pc (inv.inside u)
  | color u l' pc resumed =>
      have nothing : underway D.nbrs (s.loc c) = [] := by simp only [underway, pc]
      have around : ∀ v ∈ u :: (s.loc c).todo, v ∈ D.nbrs (s.loc c).node := by
        intro v member
        apply ((shape.ordered (by simp [pc, Pc.Active]) (by simp [pc])).2 v).mp
        rw [Local.neighbourhood, pc]
        exact List.mem_append_right _ member
      have bound := solo.inside u _ (around u List.mem_cons_self)
      have value : getNodeColor (s.get (D.server c) (.color u)) =
          greedy D.nbrs (List.range (s.loc c).i.toNat) u := by
        rw [State.get, Subsingleton.elim (D.server c) t, inv.color_read nothing (reset u bound)]
        rfl
      refine inv.resumed solo sound resumed inv.free rfl
        (fun v member => around v (List.mem_cons_of_mem u member)) ?_ nothing
      intro e member
      rcases List.mem_append.mp member with old | new
      · exact inv.read e old
      · rw [List.mem_singleton.mp new]
        exact value
  | resend w acks pc =>
      rw [pc] at unlocked
      refine inv.put sound inv.free unlocked (by simp) (by simp) inv.read ?_ once
      rcases Write.eq_of_unlocked unlocked with ⟨x, rfl⟩ | rfl
      · simp only [underway, pc]
      · simp only [underway, pc]
  | written w acks pc enough bound => exact inv.written solo pc sound
  | read lock inLoop r oldFlag oldTurn newFlag newTurn pc answer =>
      rw [pc] at unlocked
      cases unlocked

theorem step {s' : State 1 1} {a : Action 1 1} (inv : Alone D store c t s) (solo : D.Solo n)
    (reset : ∀ u < n, store (.color u) = some 0) (taken : D.step s a = some s') :
    Alone D store c t s' := by
  have sound := inv.sound.step solo.valid (step_cases taken)
  cases a with
  | deliver r o =>
      obtain ⟨net, delivered, _⟩ := Option.map_eq_some_iff.mp taken
      obtain ⟨key, v, front, _⟩ := Net.deliver_cases delivered
      exact absurd (Subsingleton.elim r o) (Net.apart_of_front inv.sound.wf front)
  | client d move =>
      obtain rfl : d = c := Subsingleton.elim d c
      change D.clientStep s d move = some s' at taken
      unfold Deployment.clientStep at taken
      dsimp only at taken
      split at taken
      · rename_i l' moved
        cases taken
        rcases clientMove_cases moved with ⟨_, quiet⟩ | ⟨w, again, sent, _⟩
        · exact inv.quiet solo reset quiet (fun zero => quiet.ne_resent zero moved) sound
        · cases sent
      · rename_i l' w again moved
        cases taken
        rcases clientMove_cases moved with ⟨sent, _⟩ | ⟨w, again, sent, _, pc, result⟩
        · cases sent
        · cases sent
          subst result
          rw [Subsingleton.elim (D.server d) t] at sound ⊢
          exact inv.sent solo pc sound
      · cases taken

theorem start (solo : D.Solo n) (store : Key → Option ℤ) (c t : Fin 1) :
    Alone D store c t (D.start store) := by
  have sound : Sound D (D.start store) := start_sound store
  have first : (D.client c).firstNode = 0 := solo.first c
  have begin : (D.client c).start = ⟨0, 0, [], [], [], .finished⟩ ∨
      ∃ v, (D.client c).start = ⟨0, v, [], [], [], .getAllNeighbours⟩ := by
    unfold Client.start
    rw [first]
    split
    · exact Or.inl rfl
    · have started := processAt_started (D.client c) 0
      generalize (D.client c).processAt 0 = l at started ⊢
      cases started with
      | node v bound key => exact Or.inr ⟨v, rfl⟩
      | crash bound key => exact absurd key (solo.keyAt_ne_none (le_refl 0) bound)
      | finish bound => exact Or.inl rfl
  have loc : (D.start store).loc c = (D.client c).start := rfl
  rcases begin with here | ⟨v, here⟩
  · rw [here] at loc
    exact ⟨sound, by rw [loc], by rw [loc]; rfl, by rw [loc]; simp, by rw [loc]; simp,
      by rw [loc]; simp, rfl, by rw [loc]; rfl, fun _ => ⟨rfl, by rw [loc]; simp⟩⟩
  · rw [here] at loc
    exact ⟨sound, by rw [loc], by rw [loc]; rfl, by rw [loc]; simp, by rw [loc]; simp,
      by rw [loc]; simp, rfl, by rw [loc]; rfl, fun _ => ⟨rfl, by rw [loc]; simp⟩⟩

theorem run (solo : D.Solo n) (reset : ∀ u < n, store (.color u) = some 0) (c t : Fin 1)
    (run : GuardedRun.Reaches D.step (D.start store) s) : Alone D store c t s :=
  run.invariant (start solo store c t) fun _ _ _ inv _ taken => inv.step solo reset taken

/-- The SETs of a complete run. -/
theorem finished (inv : Alone D store c t s) (solo : D.Solo n)
    (done : (s.loc c).pc = .finished) : dropRepeats (s.net.log t) = soloWrites D.nbrs n := by
  have shape := inv.sound.shape c
  have first := solo.first c
  have last := solo.last c
  have position : (s.loc c).i.toNat = n := by
    have low := shape.low
    rcases shape.finished done with empty | past
    · have none : n = 0 := by
        rw [solo.keys] at empty
        simpa using congrArg List.length empty
      rcases shape.high with high | high <;> omega
    · rcases shape.high with high | high <;> omega
  have wrote := inv.wrote
  have nothing : underway D.nbrs (s.loc c) = [] := by simp only [underway, done]
  rwa [position, nothing, List.append_nil] at wrote

/-- The colours of a complete run are those of the sequential algorithm. -/
theorem final_color (inv : Alone D store c t s) (solo : D.Solo n)
    (done : (s.loc c).pc = .finished) {u : ℕ} (reset : store (.color u) = some 0) :
    s.net.store t (.color u) = some (greedy D.nbrs (List.range n) u) := by
  rw [inv.stored, ← overlay_dropRepeats, inv.finished solo done]
  exact overlay_soloWrites D.nbrs n reset

theorem remaining_resumed {l l' : Local} (resumed : Resumed (D.client c) l l')
    (inside : ∀ u, l'.pc ≠ .getStatus u) :
    remaining n l' < (n - 1 - l.i.toNat) * (n + 8) + (l.todo.length + 5) := by
  cases resumed with
  | choose x empty least => simp [remaining, phase]
  | inside u rest split range => simp [remaining, phase, split]
  | outside u rest split range => exact absurd rfl (inside u)

theorem remaining_started {i : ℤ} {l : Local} (solo : D.Solo n) (low : 0 ≤ i)
    (started : Started (D.client c) (i + 1) l) :
    remaining n l < (n - 1 - i.toNat) * (n + 8) + 1 := by
  have last : (D.client c).lastNode = n - 1 := solo.last c
  cases started with
  | node v bound key =>
      have next : (i + 1).toNat = i.toNat + 1 := by omega
      have more : n - 1 - i.toNat = (n - 1 - (i.toNat + 1)) + 1 := by omega
      simp only [remaining, phase, next, reduceCtorEq, if_false]
      rw [more, Nat.succ_mul]
      omega
  | crash bound key => exact absurd key (solo.keyAt_ne_none (by omega) bound)
  | finish bound => simp [remaining]

theorem progress_neighbours (solo : D.Solo n) (pc : (s.loc c).pc = .getAllNeighbours) :
    ∃ a s', D.step s a = some s' ∧ remaining n (s'.loc c) < remaining n (s.loc c) := by
  have members : D.IsMembers (s.loc c).node (D.nbrs (s.loc c).node).toList :=
    ⟨Finset.nodup_toList _, Finset.toList_toFinset _⟩
  have taken : D.step s (.client c (.smembers (D.nbrs (s.loc c).node).toList)) =
      some (s.put c (Client.onNeighbours (s.loc c) (.value (D.nbrs (s.loc c).node).toList))) := by
    simp only [Deployment.step, Deployment.clientStep, Deployment.clientMove, pc, members, if_true]
  have count : (sortNeighbours (D.nbrs (s.loc c).node).toList).length ≤ n := by
    have inside : D.nbrs (s.loc c).node ⊆ Finset.range n := fun u adjacent =>
      Finset.mem_range.mpr (solo.inside u _ adjacent)
    rw [sortNeighbours, (List.perm_insertionSort _ _).length_eq, Finset.length_toList]
    simpa using Finset.card_le_card inside
  refine ⟨_, _, taken, ?_⟩
  rw [put_loc_self]
  simp only [remaining, phase, pc, Client.onNeighbours, reduceCtorEq, if_false]
  omega

/-- A step to the next neighbour, or to the choice of the colour. -/
theorem progress_resumed (inv : Alone D store c t s) (solo : D.Solo n)
    (reset : ∀ u < n, store (.color u) = some 0) {a : Action 1 1} {l l' : Local}
    (taken : D.step s a = some (s.put c l')) (resumed : Resumed (D.client c) l l')
    (before : remaining n (s.loc c) =
      (n - 1 - l.i.toNat) * (n + 8) + (l.todo.length + 5)) :
    ∃ a s', D.step s a = some s' ∧ remaining n (s'.loc c) < remaining n (s.loc c) := by
  have inside := (inv.step solo reset taken).inside
  refine ⟨_, _, taken, ?_⟩
  rw [put_loc_self] at inside ⊢
  rw [before]
  exact remaining_resumed resumed inside

theorem progress_set (inv : Alone D store c t s) {w : Write} {again : Bool}
    (pc : (s.loc c).pc = .set w again) :
    ∃ a s', D.step s a = some s' ∧ remaining n (s'.loc c) < remaining n (s.loc c) := by
  have taken : D.step s (.client c .set) = some ((s.send c (D.server c) w again).put c
      { s.loc c with pc := .wait w }) := by
    simp only [Deployment.step, Deployment.clientStep, Deployment.clientMove, pc, Client.onSet]
  have unlocked := inv.unlocked
  rw [pc] at unlocked
  refine ⟨_, _, taken, ?_⟩
  rw [put_loc_self]
  rcases Write.eq_of_unlocked unlocked with ⟨x, rfl⟩ | rfl
  · simp [remaining, phase, pc]
  · simp [remaining, phase, pc]

theorem progress_wait (inv : Alone D store c t s) (solo : D.Solo n)
    (enough : D.required ≤ D.plain) {w : Write} (pc : (s.loc c).pc = .wait w) :
    ∃ a s', D.step s a = some s' ∧ remaining n (s'.loc c) < remaining n (s.loc c) := by
  have bound : D.required ≤ D.plain + s.caughtUp c (D.server c) := by omega
  have acked : ¬ D.required < (D.client c).required := Nat.lt_irrefl _
  have taken : D.step s (.client c (.wait D.required)) =
      some (s.put c ((D.client c).written (s.loc c) w)) := by
    simp only [Deployment.step, Deployment.clientStep, Deployment.clientMove, pc, bound,
      if_true, Client.onWait, acknowledgedReplicas, acked, if_false]
  have unlocked := inv.unlocked
  rw [pc] at unlocked
  refine ⟨_, _, taken, ?_⟩
  rw [put_loc_self]
  rcases Write.eq_of_unlocked unlocked with ⟨x, rfl⟩ | rfl
  · simp [remaining, phase, pc, Client.written]
  · have low : 0 ≤ (s.loc c).i := by
      have position := (solo.node (inv.sound.shape c) (by simp [pc, Pc.Active])).1
      omega
    rw [inv.written_status]
    refine (remaining_started solo low (processAt_started _ _)).trans_le ?_
    simp [remaining, phase, pc]

/-- As long as the replicas a WAIT asks for are there, the client can go on. -/
theorem progress (inv : Alone D store c t s) (solo : D.Solo n)
    (reset : ∀ u < n, store (.color u) = some 0) (enough : D.required ≤ D.plain)
    (unfinished : (s.loc c).pc ≠ .finished) :
    ∃ a s', D.step s a = some s' ∧ remaining n (s'.loc c) < remaining n (s.loc c) := by
  have unlocked := inv.unlocked
  cases pc : (s.loc c).pc with
  | getAllNeighbours => exact progress_neighbours solo pc
  | checkBoundaryNode =>
      have members : D.IsMembers (s.loc c).node (D.nbrs (s.loc c).node).toList :=
        ⟨Finset.nodup_toList _, Finset.toList_toFinset _⟩
      have taken : D.step s (.client c (.smembers (D.nbrs (s.loc c).node).toList)) =
          some (s.put c ((D.client c).readNext (s.loc c))) := by
        simp only [Deployment.step, Deployment.clientStep, Deployment.clientMove, pc, members,
          if_true, Client.onBoundary]
      exact inv.progress_resumed solo reset taken (readNext_resumed _ _)
        (by simp [remaining, phase, pc])
  | getStatus u => exact absurd pc (inv.inside u)
  | set w again => exact inv.progress_set pc
  | wait w => exact inv.progress_wait solo enough pc
  | spin lock inLoop otherFlag turnVar =>
      rw [pc] at unlocked
      cases unlocked
  | getNodeColor u =>
      have taken : D.step s (.client c .get) = some (s.put c ((D.client c).onColor (s.loc c) u
          (s.get (D.server c) (.color u)))) := by
        simp only [Deployment.step, Deployment.clientStep, Deployment.clientMove, pc]
      exact inv.progress_resumed solo reset taken (readNext_resumed _ _)
        (by simp [remaining, phase, pc])
  | finished => exact absurd pc unfinished
  | crashed => exact absurd pc inv.alive

/-- So every run can be brought to its end. -/
theorem completes (inv : Alone D store c t s) (solo : D.Solo n)
    (reset : ∀ u < n, store (.color u) = some 0) (enough : D.required ≤ D.plain) :
    ∃ s', GuardedRun.Reaches D.step s s' ∧ (s'.loc c).pc = .finished := by
  induction left : remaining n (s.loc c) using Nat.strongRecOn generalizing s with
  | ind left ih =>
      by_cases done : (s.loc c).pc = .finished
      · exact ⟨s, .refl, done⟩
      · obtain ⟨a, s₁, taken, less⟩ := inv.progress solo reset enough done
        obtain ⟨s', run, done'⟩ := ih _ (left ▸ less) (inv.step solo reset taken) rfl
        exact ⟨s', (GuardedRun.Run.refl.tail trivial taken).trans run, done'⟩

end Alone

/-- A database after the SETs of a log. -/
def afterSets (db : Db) (log : List (Key × ℤ)) : Db :=
  log.foldl (fun db e => Function.update db e.1.text (some (.string (decimal e.2)))) db

theorem afterSets_dropRepeats (db : Db) (log : List (Key × ℤ)) :
    afterSets db (dropRepeats log) = afterSets db log :=
  foldl_dropRepeats _ (fun _ _ => Function.update_idem _ _ _) db log

/-- Keys and texts stay in step. -/
theorem Represents.afterSets {db : Db} {store : Key → Option ℤ} (represents : Represents db store)
    (log : List (Key × ℤ)) :
    Represents (DistributedColoring.afterSets db log) (overlay store log) := by
  induction log generalizing db store with
  | nil => exact represents
  | cons e log ih =>
      apply ih
      intro key
      beta_reduce
      by_cases same : key = e.1
      · subst same
        rw [Function.update_self, Function.update_self]
        rfl
      · rw [Function.update_of_ne same, Function.update_of_ne fun text =>
          same (Key.text_injective text)]
        exact represents key

/-- A colour that `add_graph` has reset. -/
theorem Represents.color_zero {db : Db} {store : Key → Option ℤ} (represents : Represents db store)
    {v : ℕ} (inInt : InInt v) (reset : db (colorKey v) = some (.string ['0'])) :
    store (.color v) = some 0 := by
  have text := represents (.color v)
  rw [show Key.text (.color v) = colorKey v from (colorKey_eq inInt).symm, reset] at text
  obtain ⟨x, found, same⟩ := Option.map_eq_some_iff.mp text.symm
  rw [found, decimal_injective (Obj.string.inj same : decimal x = decimal 0)]

/-- The client that reads a stored graph on `0 .. n - 1`. -/
theorem HoldsNatGraph.solo {edges : List (ℤ × ℤ)} {db : Db} (holds : HoldsNatGraph edges db)
    {n : ℕ} (dense : ∀ v : ℕ, Mentioned edges v ↔ v < n) {D : Deployment 1 1}
    (reads : D.Reads db) (outside : ∀ v, v ∉ D.keys → D.nbrs v = ∅)
    (range : ∀ c, D.firstNode c = 0 ∧ D.lastNode c = n - 1) :
    D.Solo n ∧ ∀ u v : ℕ, u ∈ D.nbrs v ↔ Joined edges u v := by
  have keys : D.keys = List.range n :=
    (reads.keys_eq holds).trans (nodesOf_eq_range holds.range dense)
  have adjacent : ∀ u v : ℕ, u ∈ D.nbrs v ↔ Joined edges u v := by
    intro u v
    by_cases member : v ∈ D.keys
    · exact reads.mem_nbrs holds member
    · rw [outside v member]
      refine iff_of_false (Finset.notMem_empty u) fun joined => member ?_
      rw [keys, List.mem_range]
      exact (dense v).mp ⟨u, joined⟩
  refine ⟨⟨keys, fun c => (range c).1, fun c => (range c).2, ?_⟩, adjacent⟩
  intro u v member
  exact (dense u).mp ⟨v, ((adjacent u v).mp member).symm⟩

/-- One client colours a graph on `0 .. n - 1` as `add_graph` leaves it. It never crashes
and can always be brought to its end. Whatever the orders in which the server lists the
keys and the neighbours, two complete runs send the same SETs, up to the repeats that a
WAIT asks for, and leave the same database, with no edge between equal colours. -/
theorem single_client_order_independent {edges : List (ℤ × ℤ)} {db : Db}
    (filled : Filled edges db) (n : ℕ) (dense : ∀ v : ℤ, Mentioned edges v ↔ 0 ≤ v ∧ v < n)
    (reset : ∀ v : ℕ, v < n → db (colorKey v) = some (.string ['0'])) (store : Key → Option ℤ)
    (represents : Represents db store) (D D' : Deployment 1 1) (reads : D.Reads db)
    (reads' : D'.Reads db) (outside : ∀ v, v ∉ D.keys → D.nbrs v = ∅)
    (outside' : ∀ v, v ∉ D'.keys → D'.nbrs v = ∅)
    (range : ∀ c, D.firstNode c = 0 ∧ D.lastNode c = n - 1)
    (range' : ∀ c, D'.firstNode c = 0 ∧ D'.lastNode c = n - 1) :
    (∀ s, GuardedRun.Reaches D.step (D.start store) s → (s.loc 0).pc ≠ .crashed ∧
      (D.required ≤ D.plain →
        ∃ s', GuardedRun.Reaches D.step s s' ∧ (s'.loc 0).pc = .finished)) ∧
    ∀ s s', GuardedRun.Reaches D.step (D.start store) s → (s.loc 0).pc = .finished →
      GuardedRun.Reaches D'.step (D'.start store) s' → (s'.loc 0).pc = .finished →
      dropRepeats (s.net.log 0) = dropRepeats (s'.net.log 0) ∧
      (D.required = 0 → D'.required = 0 → s.net.log 0 = s'.net.log 0) ∧
      afterSets db (s.net.log 0) = afterSets db (s'.net.log 0) ∧
      Represents (afterSets db (s.net.log 0)) (s.net.store 0) ∧
      ∀ u v : ℕ, Joined edges u v → u ≠ v →
        s.net.store 0 (.color u) ≠ s.net.store 0 (.color v) := by
  have holds := filled.holds
  have nodes : ∀ v : ℕ, Mentioned edges v ↔ v < n := by
    intro v
    rw [dense]
    omega
  obtain ⟨solo, adjacent⟩ := holds.solo nodes reads outside range
  obtain ⟨solo', adjacent'⟩ := holds.solo nodes reads' outside' range'
  have graph : D'.nbrs = D.nbrs := by
    funext v
    ext u
    rw [adjacent, adjacent']
  have colors : ∀ u < n, store (.color u) = some 0 := by
    intro u less
    have inInt : InInt u :=
      ((nodes u).mpr less).inInt fun e member => (holds.range e member).1
    exact represents.color_zero inInt (reset u less)
  refine ⟨?_, ?_⟩
  · intro s run
    have inv := Alone.run solo colors 0 0 run
    exact ⟨inv.alive, inv.completes solo colors⟩
  · intro s s' run done run' done'
    have inv := Alone.run solo colors 0 0 run
    have inv' := Alone.run solo' colors 0 0 run'
    have log := inv.finished solo done
    have log' := inv'.finished solo' done'
    rw [graph] at log'
    have same : dropRepeats (s.net.log 0) = dropRepeats (s'.net.log 0) := log.trans log'.symm
    refine ⟨same, ?_, ?_, ?_, ?_⟩
    · intro zero zero'
      rw [← (inv.whole zero).1, ← (inv'.whole zero').1, same]
    · rw [← afterSets_dropRepeats, same, afterSets_dropRepeats]
    · rw [inv.stored]
      exact represents.afterSets _
    · intro u v joined apart
      have lessU := (nodes u).mp ⟨v, joined.symm⟩
      have lessV := (nodes v).mp ⟨u, joined⟩
      rw [inv.final_color solo done (colors u lessU), inv.final_color solo done (colors v lessV),
        ne_eq, Option.some.injEq]
      refine greedy_proper D.nbrs (fun u v edge => ?_) _ List.nodup_range (List.mem_range.mpr lessU)
        (List.mem_range.mpr lessV) ((adjacent u v).mpr joined) apart
      exact (adjacent v u).mpr ((adjacent u v).mp edge).symm

/-- The path on three nodes, for one client. -/
def pathClient : Deployment 1 1 where
  nbrs := nbrsOf [(0, 1), (1, 2)]
  keys := [0, 1, 2]
  firstNode _ := 0
  lastNode _ := 2
  server := id
  required := 0
  plain := 0
  order := .sync

/-- The commands of `pathClient`, with the two replies for the node in the middle. -/
def pathMoves (first second : List ℕ) : List (Action 1 1) :=
  List.map (Action.client ⟨0, Nat.one_pos⟩)
    [.smembers [1], .smembers [1], .get, .set, .wait 0, .set, .wait 0,
      .smembers first, .smembers second, .get, .get, .set, .wait 0, .set, .wait 0,
      .smembers [1], .smembers [1], .get, .set, .wait 0, .set, .wait 0]

/-- The server lists the neighbours of the node in the middle in two ways. -/
theorem single_client_path : ∃ db s s', Filled [(0, 1), (1, 2)] db ∧ pathClient.Reads db ∧
    GuardedRun.exec pathClient.step (fun _ _ => True) (pathClient.start pathClient.loaded)
      (pathMoves [0, 2] [0, 2]) = some s ∧
    GuardedRun.exec pathClient.step (fun _ _ => True) (pathClient.start pathClient.loaded)
      (pathMoves [2, 0] [0, 2]) = some s' ∧
    s.net.log 0 = s'.net.log 0 ∧ afterSets db (s.net.log 0) = afterSets db (s'.net.log 0) ∧
    s.net.store 0 (.color 0) ≠ s.net.store 0 (.color 1) := by
  obtain ⟨loading, _, loads, filled⟩ := exists_filled_edges .keydb "0,1\n1,2\n".toList
    [(0, 1), (1, 2)] (by decide) (by decide) (by simp [PlainEdge, IntEdge, InInt])
  have holds := filled.holds
  have dense := holds.dense (n := 3) (by decide)
  have nodes : pathClient.keys = nodesOf [(0, 1), (1, 2)] := by decide
  have reads := holds.reads nodes rfl
  have outside : ∀ v, v ∉ pathClient.keys → pathClient.nbrs v = ∅ := by
    intro v missing
    refine Finset.eq_empty_of_forall_notMem fun u member => missing ?_
    rw [nodes, mem_nodesOf holds.range]
    exact ⟨u, (holds.mem_nbrsOf u v).mp member⟩
  have represents : Represents loading.db pathClient.loaded :=
    loads.represents_loaded (fun _ => rfl) (fun e member => (holds.range e member).1) fun v => by
      rw [nodes, mem_nodesOf holds.range]
  obtain ⟨s, run, done⟩ := (Option.any_eq_true ..).mp (show (GuardedRun.exec pathClient.step
    (fun _ _ => True) (pathClient.start pathClient.loaded) (pathMoves [0, 2] [0, 2])).any
      (fun s => (s.loc 0).pc = .finished) = true by decide +kernel)
  obtain ⟨s', run', done'⟩ := (Option.any_eq_true ..).mp (show (GuardedRun.exec pathClient.step
    (fun _ _ => True) (pathClient.start pathClient.loaded) (pathMoves [2, 0] [0, 2])).any
      (fun s => (s.loc 0).pc = .finished) = true by decide +kernel)
  obtain ⟨_, logs, databases, _, proper⟩ := (single_client_order_independent filled 3 dense
    (fun v less => loads.color v ((dense v).mpr (by omega))) _ represents pathClient pathClient
    reads reads outside outside (fun _ => ⟨rfl, rfl⟩) (fun _ => ⟨rfl, rfl⟩)).2 s s'
    (GuardedRun.Run.of_exec _ run) (of_decide_eq_true done) (GuardedRun.Run.of_exec _ run')
    (of_decide_eq_true done')
  exact ⟨_, s, s', filled, reads, run, run', logs rfl rfl, databases,
    proper 0 1 (by decide) (by decide)⟩

end DistributedColoring

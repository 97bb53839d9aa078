import DistributedColoring.EdgeLock
import DistributedColoring.History
import DistributedColoring.GreedyColoring

set_option autoImplicit false

/- Every colour a client reads stays what it is until the client has sent its own:
the neighbour is coloured already, or belongs to the same client, or the lock of the
edge is held. Hence the colours are those of the sequential algorithm. -/
namespace DistributedColoring

open GreedyColoring
open ReplicatedLog

variable {k N : ℕ} {D : Deployment k N}

/-- The colour of `u` has been sent, and a client that may send it again meets `P`. -/
def Colored (s : State k N) (u : ℕ) (P : Fin k → Prop) : Prop :=
  u ∈ s.history ∧ ∀ d x, (s.loc d).node = u → (s.loc d).pc.Sent (.color x) → P d

/-- The `write_with_wait` of the colour of `u` has returned. -/
def Done (s : State k N) (u : ℕ) : Prop := Colored s u fun _ => False

/-- The colour of `u` is final at the server of client `c`. -/
def Visible (D : Deployment k N) (s : State k N) (c : Fin k) (u : ℕ) : Prop :=
  Colored s u fun d => D.server d = D.server c

theorem Colored.mono {s : State k N} {u : ℕ} {P Q : Fin k → Prop} (colored : Colored s u P)
    (weaker : ∀ d, P d → Q d) : Colored s u Q :=
  ⟨colored.1, fun d x node sent => weaker d (colored.2 d x node sent)⟩

namespace Deployment

/-- No announcement of a turn is sent while another one is under way to its server. -/
def TurnClear (D : Deployment k N) (s : State k N) : Action k N → Prop
  | .client c .set =>
      match (s.loc c).pc with
      | .set (.turn L) _ => ¬ s.net.InFlight (D.server c) L.turnKey
      | _ => True
  | _ => True

/-- A status other than zero is read only for a node whose colour is final. -/
def StatusFresh (D : Deployment k N) (s : State k N) : Action k N → Prop
  | .client c .get =>
      match (s.loc c).pc with
      | .getStatus u => getStatus (s.get (D.server c) (.status u)) ≠ 0 → Visible D s c u
      | _ => True
  | _ => True

/-- A graph whose work is assigned as the range test assumes, and servers
that the SETs of every client reach before it goes on. -/
structure Wellposed (D : Deployment k N) : Prop where
  valid : D.Valid
  symmetric : ∀ u v, u ∈ D.nbrs v → v ∈ D.nbrs u
  owned : ∀ u v, u ∈ D.nbrs v → ∃ c, D.Owns c u
  aligned : ∀ c u v, D.Owns c v → u ∈ D.nbrs v → (D.client c).Internal u → D.Owns c u
  reaches : ∀ c t, D.Reaches c t

end Deployment

/-- Up to the acknowledgement of the colour. -/
def Pc.Deciding (pc : Pc) : Prop := pc.Reading ∨ ∃ x, pc.Sent (.color x)

/-- No other client changes the colour of `u` before client `c` has sent its own. -/
def Frozen (D : Deployment k N) (s : State k N) (c : Fin k) (u : ℕ) : Prop :=
  Visible D s c u ∨ D.Owns c u ∨ ⟨(s.loc c).node, u⟩ ∈ (s.loc c).locks

structure Serial (D : Deployment k N) (s : State k N) : Prop where
  sound : Sound D s
  recorded : Recorded D s
  edges : ∀ c d L, Rivals D c d L → EdgeSafe D s c d L
  frozen : ∀ c u, (s.loc c).pc.Deciding →
    u ∈ (s.loc c).visited ∨ (s.loc c).pc = .getNodeColor u → Frozen D s c u
  read : ∀ c u x, (s.loc c).pc.Reading → (u, x) ∈ (s.loc c).colors →
    x = greedy D.nbrs s.history u
  settled : ∀ u t, Done s u → ¬ s.net.InFlight t (.color u)
  untouched : ∀ u o x, u ∉ s.history → (.color u, x) ∉ s.net.log o
  home : ∀ c u, D.Owns c u →
    s.net.store (D.server c) (.color u) = some (greedy D.nbrs s.history u)

/-- The client that decides on a neighbour's colour has asked for the lock as well. -/
theorem Serial.visible {s : State k N} (serial : Serial D s) (posed : D.Wellposed) {c d : Fin k}
    (apart : c ≠ d) (reading : (s.loc c).pc.Reading)
    (adjacent : (s.loc d).node ∈ D.nbrs (s.loc c).node)
    (frozen : Frozen D s c (s.loc d).node) {x : ℤ}
    (choosing : (∃ again, (s.loc d).pc = .set (.color x) again) ∨ (s.loc d).pc = .wait (.color x)) :
    Visible D s c (s.loc d).node := by
  have active : (s.loc d).pc.Active := by
    rcases choosing with ⟨again, pc⟩ | pc <;> simp [pc, Pc.Active]
  have deciding : (s.loc d).pc.Deciding := by
    rcases choosing with ⟨again, pc⟩ | pc
    · cases again with
      | false => exact Or.inl (by simp [pc, Pc.Reading, Pc.Active, Pc.Colored])
      | true => exact Or.inr ⟨x, Or.inr pc⟩
    · exact Or.inr ⟨x, Or.inl pc⟩
  have ownsC := (serial.sound.shape c).owns reading.1
  have ownsD := (serial.sound.shape d).owns active
  have unseen := serial.recorded.notMem serial.sound posed.valid reading
  rcases frozen with visible | owns | held
  · exact visible
  · exact absurd (posed.valid.owner_unique owns ownsD) apart
  · have visited : (s.loc c).node ∈ (s.loc d).visited := by
      have todo := ((serial.sound.shape d).chosen x choosing).2
      have current : (s.loc d).pc.current = [] := by
        rcases choosing with ⟨again, pc⟩ | pc <;> rw [pc] <;> rfl
      have all := ((serial.sound.shape d).ordered active
        (by rcases choosing with ⟨again, pc⟩ | pc <;> simp [pc])).2 (s.loc c).node
      simp only [Local.neighbourhood, current, todo, List.append_nil] at all
      exact all.mpr (posed.symmetric _ _ adjacent)
    rcases serial.frozen d (s.loc c).node deciding (Or.inl visited) with visible | owns | lock
    · exact absurd visible.1 unseen
    · exact absurd (posed.valid.owner_unique ownsC owns) apart
    · have rivals : Rivals D c d ⟨(s.loc c).node, (s.loc d).node⟩ :=
        ⟨⟨apart, ownsC, ownsD⟩, posed.reaches _ _, posed.reaches _ _⟩
      exact absurd (phase_of_holds (Or.inl lock))
        ((serial.edges c d _ rivals).exclusive (phase_of_holds (Or.inl held)))

/-- A client reads the value the sequential algorithm has at that moment. -/
theorem Serial.color_read {s : State k N} (serial : Serial D s) (posed : D.Wellposed) {c : Fin k}
    {u : ℕ} (pc : (s.loc c).pc = .getNodeColor u) :
    s.net.store (D.server c) (.color u) = some (greedy D.nbrs s.history u) := by
  have active : (s.loc c).pc.Active := by simp [pc, Pc.Active]
  have reading : (s.loc c).pc.Reading := ⟨active, by rw [pc]; exact not_false⟩
  have adjacent : u ∈ D.nbrs (s.loc c).node := by
    apply (((serial.sound.shape c).ordered active (by simp [pc])).2 u).mp
    simp [Local.neighbourhood, pc, Pc.current]
  obtain ⟨d, owns⟩ := posed.owned u _ adjacent
  have tracks := serial.sound.tracks d (.color u) u owns rfl
  have quiet : ¬ s.net.InFlight (D.server c) (.color u) := by
    by_cases coloredU : u ∈ s.history
    · by_cases sending : ∃ e x, (s.loc e).node = u ∧ (s.loc e).pc.Sent (.color x)
      · obtain ⟨e, x, node, sent⟩ := sending
        have apart : c ≠ e := by
          rintro rfl
          rcases sent with again | again <;> rw [pc] at again <;> cases again
        have choosing : (∃ again, (s.loc e).pc = .set (.color x) again) ∨
            (s.loc e).pc = .wait (.color x) := by
          rcases sent with waiting | again
          · exact Or.inr waiting
          · exact Or.inl ⟨true, again⟩
        have frozen := serial.frozen c u (Or.inl reading) (Or.inr pc)
        subst node
        have visible := serial.visible posed apart reading adjacent frozen choosing
        rw [← visible.2 e x rfl sent]
        have ownsE := (serial.sound.shape e).owns
          (by rcases sent with waiting | again <;> simp [*, Pc.Active])
        exact (serial.sound.tracks e _ _ ownsE rfl).not_inFlight_self serial.sound.wf
      · apply serial.settled u (D.server c)
        refine ⟨coloredU, fun e x node sent => sending ⟨e, x, node, sent⟩⟩
    · rintro ⟨o, x, member⟩
      exact serial.untouched u o x coloredU (List.mem_of_mem_drop member)
  rw [tracks.agree _ quiet]
  exact serial.home d u owns

theorem history_subset {s s' : State k N} {a : Action k N} (taken : StepCase D s a s') {u : ℕ}
    (old : u ∈ s.history) : u ∈ s'.history := by
  cases taken with
  | quiet c move l' quiet => exact old
  | send c w again pc =>
      cases w <;> cases again <;> first | exact old | exact List.mem_append_left _ old
  | deliver t o key v front => exact old

theorem Colored.step {s s' : State k N} {a : Action k N} {u : ℕ} {P : Fin k → Prop}
    (colored : Colored s u P) (valid : D.Valid) (sound : Sound D s) (recorded : Recorded D s)
    (taken : StepCase D s a s') : Colored s' u P := by
  refine ⟨history_subset taken colored.1, ?_⟩
  intro d x node sent
  cases taken with
  | quiet c move l' quiet =>
      by_cases same : d = c
      · subst same
        rw [put_loc_self] at node sent
        obtain ⟨pc, unchanged⟩ := quiet.resent sent
        exact colored.2 d x (unchanged.symm.trans node) (Or.inl pc)
      · rw [put_loc_other s l' same] at node sent
        exact colored.2 d x node sent
  | send c w again pc =>
      by_cases same : d = c
      · subst same
        rw [put_loc_self] at node sent
        have write : w = .color x := by simpa [Pc.Sent] using sent
        subst write
        cases again with
        | true => exact colored.2 d x node (Or.inr pc)
        | false =>
            have reading : (s.loc d).pc.Reading := by
              simp [pc, Pc.Reading, Pc.Active, Pc.Colored]
            have unseen := recorded.notMem sound valid reading
            rw [node] at unseen
            exact absurd colored.1 unseen
      · rw [put_loc_other _ _ same] at node sent
        exact colored.2 d x node sent
  | deliver t o key v front => exact colored.2 d x node sent

theorem Released.not_deciding {C : Client} {l l' : Local} (released : Released C l l')
    (deciding : l'.pc.Deciding) : l'.colors = [] ∧ ∀ u, l'.pc ≠ .getNodeColor u := by
  cases released with
  | unlock lock rest split =>
      rcases deciding with reading | ⟨x, sent⟩
      · exact absurd trivial reading.2
      · simp [Pc.Sent] at sent
  | next l' empty started => cases started <;> simp

theorem Released.unread {C : Client} {l l' : Local} (released : Released C l l')
    (deciding : l'.pc.Deciding) (u : ℕ) : ¬ (u ∈ l'.visited ∨ l'.pc = .getNodeColor u) := by
  obtain ⟨colors, elsewhere⟩ := released.not_deciding deciding
  simp [Local.visited, colors, elsewhere]

/-- The return of `write_with_wait` reads nothing. -/
theorem written_read {C : Client} {l : Local} {w : Write} (pc : l.pc = .wait w)
    (deciding : (C.written l w).pc.Deciding) {u : ℕ}
    (read : u ∈ (C.written l w).visited ∨ (C.written l w).pc = .getNodeColor u) :
    l.pc.Deciding ∧ u ∈ l.visited ∧ (C.written l w).node = l.node ∧
      (C.written l w).locks = l.locks := by
  rw [pc]
  cases w with
  | flag lock =>
      refine ⟨Or.inl ⟨by simp [Pc.Active], not_false⟩, ?_, rfl, rfl⟩
      exact read.resolve_right (by simp [Client.written])
  | turn lock =>
      refine ⟨Or.inl ⟨by simp [Pc.Active], not_false⟩, ?_, rfl, rfl⟩
      exact read.resolve_right (by simp [Client.written])
  | color x =>
      rcases deciding with reading | ⟨y, sent⟩
      · exact absurd trivial reading.2
      · simp [Client.written, Pc.Sent] at sent
  | status => exact absurd read ((releaseNext_released C l).unread deciding u)
  | release lock => exact absurd read ((releaseNext_released C l).unread deciding u)

/-- The neighbours a client has read stay frozen over a step of its own. -/
theorem Quiet.frozen {s : State k N} {c : Fin k} {move : Move} {l' : Local}
    (quiet : Quiet D s c move l') (posed : D.Wellposed) (shape : Shape D c (s.loc c))
    (old : ∀ u, (s.loc c).pc.Deciding →
      u ∈ (s.loc c).visited ∨ (s.loc c).pc = .getNodeColor u → Frozen D s c u)
    (fresh : D.StatusFresh s (.client c move)) (u : ℕ) (deciding : l'.pc.Deciding)
    (read : u ∈ l'.visited ∨ l'.pc = .getNodeColor u) :
    Visible D s c u ∨ D.Owns c u ∨ ⟨l'.node, u⟩ ∈ l'.locks := by
  have shape' := quiet.shape shape
  have internal : (D.client c).Internal u → l'.pc = .getNodeColor u → D.Owns c u := by
    intro range pc
    have active : l'.pc.Active := by simp [pc, Pc.Active]
    have adjacent := ((shape'.ordered active (by simp [pc])).2 u).mp
      (by simp [Local.neighbourhood, pc, Pc.current])
    exact posed.aligned c u l'.node (shape'.owns active) adjacent range
  have reading : ∀ pc, (s.loc c).pc = pc → pc.Active → ¬ pc.Colored → (s.loc c).pc.Deciding := by
    intro pc same active uncolored
    rw [same]
    exact Or.inl ⟨active, uncolored⟩
  cases quiet with
  | neighbours reply pc members =>
      obtain ⟨colors, _⟩ := shape.fresh (Or.inl pc)
      simp [Local.visited, colors] at read
  | boundary reply l' pc resumed =>
      obtain ⟨colors, locks, node, range⟩ := resumed.keeps
      rcases read with visited | here
      · have empty := (shape.fresh (Or.inr pc)).1
        simp [Local.visited, colors, empty] at visited
      · exact Or.inr (Or.inl (internal (range u here) here))
  | mustLock v pc status =>
      have visited : u ∈ (s.loc c).visited := read.resolve_right (by simp)
      exact old u (reading _ pc (by simp [Pc.Active]) not_false) (Or.inl visited)
  | skipLock v pc status =>
      rcases read with visited | here
      · exact old u (reading _ pc (by simp [Pc.Active]) not_false) (Or.inl visited)
      · cases here
        simp only [Deployment.StatusFresh, pc] at fresh
        exact Or.inl (fresh status)
  | color v l' pc resumed =>
      obtain ⟨colors, locks, node, range⟩ := resumed.keeps
      rw [locks, node]
      rcases read with visited | here
      · apply old u (reading _ pc (by simp [Pc.Active]) not_false)
        simp only [Local.visited, colors, List.map_append, List.mem_append, List.map_cons,
          List.map_nil, List.mem_singleton] at visited
        rcases visited with before | now
        · exact Or.inl before
        · rw [now]
          exact Or.inr pc
      · exact Or.inr (Or.inl (internal (range u here) here))
  | resend w acks pc =>
      have visited : u ∈ (s.loc c).visited := read.resolve_right (by simp)
      apply old u _ (Or.inl visited)
      rw [pc]
      rcases deciding with ⟨active, uncolored⟩ | ⟨x, sent⟩
      · refine Or.inl ⟨by simp [Pc.Active], ?_⟩
        cases w <;> simp [Pc.Colored] at uncolored ⊢
      · have write : w = .color x := by simpa [Pc.Sent] using sent
        rw [write]
        exact Or.inr ⟨x, Or.inl rfl⟩
  | written w acks pc enough bound =>
      obtain ⟨before, visited, node, locks⟩ := written_read pc deciding read
      rw [node, locks]
      exact old u before (Or.inl visited)
  | read lock inLoop r oldFlag oldTurn newFlag newTurn pc answer =>
      obtain ⟨colors, node, locks, enter⟩ :=
        (onLockReads_spun (s.loc c) lock inLoop newFlag newTurn).keeps
      have same := (shape.lock lock (Or.inr (by rw [pc]; rfl))).1
      rw [node]
      rcases read with visited | here
      · rw [Local.visited, colors] at visited
        have before := old u (reading _ pc (by simp [Pc.Active]) not_false) (Or.inl visited)
        exact before.imp_right fun rest => rest.imp_right (locks _)
      · obtain ⟨nbr, held⟩ := enter u here
        rw [nbr, ← same]
        exact Or.inr (Or.inr held)

/-- A colour in hand was in hand before or has just been read. -/
theorem Quiet.colors {s : State k N} {c : Fin k} {move : Move} {l' : Local}
    (quiet : Quiet D s c move l') {u : ℕ} {x : ℤ} (reading : l'.pc.Reading)
    (member : (u, x) ∈ l'.colors) :
    ((s.loc c).pc.Reading ∧ (u, x) ∈ (s.loc c).colors) ∨
      ((s.loc c).pc = .getNodeColor u ∧
        x = getNodeColor (s.get (D.server c) (.color u))) := by
  have before : ∀ pc, (s.loc c).pc = pc → pc.Active → ¬ pc.Colored → (s.loc c).pc.Reading := by
    intro pc same active uncolored
    rw [same]
    exact ⟨active, uncolored⟩
  cases quiet with
  | neighbours reply pc members =>
      exact Or.inl ⟨before _ pc (by simp [Pc.Active]) not_false, member⟩
  | boundary reply l' pc resumed =>
      rw [resumed.keeps.1] at member
      exact Or.inl ⟨before _ pc (by simp [Pc.Active]) not_false, member⟩
  | mustLock v pc status =>
      exact Or.inl ⟨before _ pc (by simp [Pc.Active]) not_false, member⟩
  | skipLock v pc status =>
      exact Or.inl ⟨before _ pc (by simp [Pc.Active]) not_false, member⟩
  | color v l' pc resumed =>
      rw [resumed.keeps.1] at member
      rcases List.mem_append.mp member with old | new
      · exact Or.inl ⟨before _ pc (by simp [Pc.Active]) not_false, old⟩
      · obtain ⟨nbr, value⟩ := Prod.mk.inj (List.mem_singleton.mp new)
        rw [nbr]
        exact Or.inr ⟨pc, value⟩
  | resend w acks pc =>
      refine Or.inl ⟨before _ pc (by simp [Pc.Active]) ?_, member⟩
      have uncolored := reading.2
      cases w <;> simp [Pc.Colored] at uncolored ⊢
  | written w acks pc enough bound =>
      cases w with
      | flag lock => exact Or.inl ⟨before _ pc (by simp [Pc.Active]) not_false, member⟩
      | turn lock => exact Or.inl ⟨before _ pc (by simp [Pc.Active]) not_false, member⟩
      | color y => exact absurd trivial reading.2
      | status =>
          have empty := ((releaseNext_released _ _).not_deciding (Or.inl reading)).1
          change (u, x) ∈ ((D.client c).releaseNext (s.loc c)).colors at member
          simp [empty] at member
      | release lock =>
          have empty := ((releaseNext_released _ _).not_deciding (Or.inl reading)).1
          change (u, x) ∈ ((D.client c).releaseNext (s.loc c)).colors at member
          simp [empty] at member
  | read lock inLoop r oldFlag oldTurn newFlag newTurn pc answer =>
      rw [(onLockReads_spun (s.loc c) lock inLoop newFlag newTurn).keeps.1] at member
      exact Or.inl ⟨before _ pc (by simp [Pc.Active]) not_false, member⟩

/-- Of the clients that have sent their colour, only one whose `write_with_wait`
returns leaves that stage. -/
theorem Quiet.sent_color {s : State k N} {c : Fin k} {move : Move} {l' : Local}
    (quiet : Quiet D s c move l') {x : ℤ} (sent : (s.loc c).pc.Sent (.color x)) :
    (l'.pc.Sent (.color x) ∧ l'.node = (s.loc c).node) ∨
      ∃ acks, (s.loc c).pc = .wait (.color x) ∧ D.required ≤ acks ∧
        acks ≤ D.plain + s.caughtUp c (D.server c) := by
  have waiting : ∀ pc, (s.loc c).pc = pc → pc = .wait (.color x) ∨ pc = .set (.color x) true := by
    intro pc same
    rw [← same]
    exact sent
  cases quiet with
  | neighbours reply pc members => simpa using waiting _ pc
  | boundary reply l' pc resumed => simpa using waiting _ pc
  | mustLock v pc status => simpa using waiting _ pc
  | skipLock v pc status => simpa using waiting _ pc
  | color v l' pc resumed => simpa using waiting _ pc
  | resend w acks pc =>
      have write : w = .color x := by simpa using waiting _ pc
      rw [write]
      exact Or.inl ⟨Or.inr rfl, rfl⟩
  | written w acks pc enough bound =>
      have write : w = .color x := by simpa using waiting _ pc
      rw [write] at pc
      exact Or.inr ⟨acks, pc, enough, bound⟩
  | read lock inLoop r oldFlag oldTurn newFlag newTurn pc answer => simpa using waiting _ pc

theorem write_of_color {w : Write} {v u : ℕ} (same : (w.command v).1 = .color u) :
    (∃ x, w = .color x) ∧ v = u := by
  cases w with
  | color x =>
      injection same with nodes
      exact ⟨⟨x, rfl⟩, nodes⟩
  | flag lock => cases same
  | turn lock => cases same
  | status => cases same
  | release lock => cases same

/-- A node enters the history with a SET of its colour. -/
theorem mem_history_of_send {s : State k N} {c : Fin k} (server : Fin N) {w : Write}
    {again : Bool} {v : ℕ} (member : v ∈ (s.send c server w again).history) :
    v ∈ s.history ∨ (w.command (s.loc c).node).1 = .color v := by
  cases w with
  | color x =>
      cases again with
      | true => exact Or.inl member
      | false =>
          refine (List.mem_append.mp member).imp_right fun new => ?_
          rw [List.mem_singleton.mp new]
          rfl
  | flag lock => exact Or.inl member
  | turn lock => exact Or.inl member
  | status => exact Or.inl member
  | release lock => exact Or.inl member

/-- A SET changes the sequential colouring at most at the node of its client. -/
theorem greedy_send (s : State k N) (c : Fin k) (server : Fin N) (w : Write) (again : Bool)
    {u : ℕ} (other : u ≠ (s.loc c).node) :
    greedy D.nbrs (s.send c server w again).history u = greedy D.nbrs s.history u := by
  cases w with
  | color x =>
      cases again with
      | true => rfl
      | false =>
          change greedy D.nbrs (s.history ++ [(s.loc c).node]) u = _
          rw [greedy_snoc, turn, Function.update_of_ne other]
  | flag lock => rfl
  | turn lock => rfl
  | status => rfl
  | release lock => rfl

/-- The colour a client sends first is the one the sequential algorithm gives next. -/
theorem Serial.color_sent {s : State k N} (serial : Serial D s) {c : Fin k} {x : ℤ}
    (pc : (s.loc c).pc = .set (.color x) false) :
    greedy D.nbrs (s.history ++ [(s.loc c).node]) (s.loc c).node = x := by
  have shape := serial.sound.shape c
  have active : (s.loc c).pc.Active := by simp [pc, Pc.Active]
  have reading : (s.loc c).pc.Reading := ⟨active, by simp [pc, Pc.Colored]⟩
  obtain ⟨least, todo⟩ := shape.chosen x (Or.inl ⟨false, pc⟩)
  have all : ∀ u, u ∈ (s.loc c).visited ↔ u ∈ D.nbrs (s.loc c).node := by
    intro u
    have both := (shape.ordered active (by simp [pc])).2 u
    simpa [Local.neighbourhood, todo, pc, Pc.current, Write.current] using both
  rw [greedy_snoc, turn, Function.update_self]
  apply leastFree_eq
  have used : {y | y ∈ (s.loc c).colors.map Prod.snd} =
      (((D.nbrs (s.loc c).node).image (greedy D.nbrs s.history) : Finset ℤ) : Set ℤ) := by
    ext y
    simp only [List.mem_map, Prod.exists, exists_eq_right, Set.mem_ofPred_eq, Finset.coe_image,
      Set.mem_image, Finset.mem_coe]
    constructor
    · rintro ⟨u, member⟩
      refine ⟨u, (all u).mp (List.mem_map_of_mem (f := Prod.fst) member), ?_⟩
      exact (serial.read c u y reading member).symm
    · rintro ⟨u, adjacent, value⟩
      obtain ⟨⟨v, z⟩, member, same⟩ := List.mem_map.mp ((all u).mpr adjacent)
      change v = u at same
      subst same
      refine ⟨v, ?_⟩
      rw [← value, ← serial.read c v z reading member]
      exact member
  rw [← used]
  exact least

section Step

variable {s s' : State k N} {a : Action k N}

theorem Serial.frozen_step (serial : Serial D s) (posed : D.Wellposed)
    (taken : StepCase D s a s') (fresh : D.StatusFresh s a) (c : Fin k) (u : ℕ)
    (deciding : (s'.loc c).pc.Deciding)
    (read : u ∈ (s'.loc c).visited ∨ (s'.loc c).pc = .getNodeColor u) : Frozen D s' c u := by
  have lift : Visible D s c u → Visible D s' c u := fun visible =>
    Colored.step visible posed.valid serial.sound serial.recorded taken
  cases taken with
  | quiet d move l' quiet =>
      by_cases same : c = d
      · subst same
        unfold Frozen
        rw [put_loc_self] at deciding read ⊢
        exact (quiet.frozen posed (serial.sound.shape c) (serial.frozen c) fresh u deciding
          read).imp_left lift
      · unfold Frozen
        rw [put_loc_other s l' same] at deciding read ⊢
        exact (serial.frozen c u deciding read).imp_left lift
  | send d w again pc =>
      by_cases same : c = d
      · subst same
        unfold Frozen
        rw [put_loc_self] at deciding read ⊢
        have visited : u ∈ (s.loc c).visited := read.resolve_right (by simp)
        refine (serial.frozen c u ?_ (Or.inl visited)).imp_left lift
        rw [pc]
        cases w with
        | flag lock => exact Or.inl ⟨by simp [Pc.Active], not_false⟩
        | turn lock => exact Or.inl ⟨by simp [Pc.Active], not_false⟩
        | color x =>
            cases again with
            | false => exact Or.inl ⟨by simp [Pc.Active], by simp [Pc.Colored]⟩
            | true => exact Or.inr ⟨x, Or.inr rfl⟩
        | status => simp [Pc.Deciding, Pc.Reading, Pc.Colored, Pc.Sent] at deciding
        | release lock => simp [Pc.Deciding, Pc.Reading, Pc.Colored, Pc.Sent] at deciding
      · unfold Frozen
        rw [put_loc_other _ _ same] at deciding read ⊢
        exact (serial.frozen c u deciding read).imp_left lift
  | deliver t o key v front => exact (serial.frozen c u deciding read).imp_left lift

theorem Serial.read_step (serial : Serial D s) (posed : D.Wellposed) (taken : StepCase D s a s')
    (c : Fin k) (u : ℕ) (x : ℤ) (reading : (s'.loc c).pc.Reading)
    (member : (u, x) ∈ (s'.loc c).colors) : x = greedy D.nbrs s'.history u := by
  cases taken with
  | quiet d move l' quiet =>
      rw [put_history]
      by_cases same : c = d
      · subst same
        rw [put_loc_self] at reading member
        rcases quiet.colors reading member with ⟨before, old⟩ | ⟨pc, value⟩
        · exact serial.read c u x before old
        · rw [value, State.get, serial.color_read posed pc]
          rfl
      · rw [put_loc_other s l' same] at reading member
        exact serial.read c u x reading member
  | send d w again pc =>
      rw [put_history]
      by_cases same : c = d
      · subst same
        rw [put_loc_self] at reading member
        cases w with
        | flag lock =>
            exact serial.read c u x (by simp [pc, Pc.Reading, Pc.Active, Pc.Colored]) member
        | turn lock =>
            exact serial.read c u x (by simp [pc, Pc.Reading, Pc.Active, Pc.Colored]) member
        | color y => exact absurd trivial reading.2
        | status => exact absurd trivial reading.2
        | release lock => exact absurd trivial reading.2
      · rw [put_loc_other _ _ same, send_loc] at reading member
        have old := serial.read c u x reading member
        by_cases here : u = (s.loc d).node
        · cases w with
          | color y =>
              cases again with
              | true => exact old
              | false =>
                  have visited : u ∈ (s.loc c).visited := List.mem_map_of_mem (f := Prod.fst) member
                  have adjacent : u ∈ D.nbrs (s.loc c).node := by
                    have started : (s.loc c).pc ≠ .getAllNeighbours := by
                      intro first
                      have empty := ((serial.sound.shape c).fresh (Or.inl first)).1
                      rw [empty] at member
                      cases member
                    apply (((serial.sound.shape c).ordered reading.1 started).2 u).mp
                    exact List.mem_append_left _ visited
                  have frozen := serial.frozen c u (Or.inl reading) (Or.inl visited)
                  rw [here] at adjacent frozen
                  have visible := serial.visible posed same reading adjacent frozen
                    (Or.inl ⟨false, pc⟩)
                  have unseen := serial.recorded.notMem serial.sound posed.valid (c := d)
                    (by simp [pc, Pc.Reading, Pc.Active, Pc.Colored])
                  exact absurd visible.1 unseen
          | flag lock => exact old
          | turn lock => exact old
          | status => exact old
          | release lock => exact old
        · rw [greedy_send s d _ w again here]
          exact old
  | deliver t o key v front => exact serial.read c u x reading member

theorem Serial.settled_step (serial : Serial D s) (posed : D.Wellposed)
    (taken : StepCase D s a s') (u : ℕ) (t : Fin N) (done : Done s' u) :
    ¬ s'.net.InFlight t (.color u) := by
  cases taken with
  | quiet c move l' quiet =>
      by_cases sending : ∃ d x, (s.loc d).node = u ∧ (s.loc d).pc.Sent (.color x)
      · obtain ⟨d, x, node, sent⟩ := sending
        have client : d = c := by
          by_contra other
          apply done.2 d x
          · rw [put_loc_other s l' other]
            exact node
          · rw [put_loc_other s l' other]
            exact sent
        subst client
        rcases quiet.sent_color sent with ⟨still, same⟩ | ⟨acks, pc, enough, bound⟩
        · refine absurd (done.2 d x ?_ ?_) not_false
          · rw [put_loc_self, same, node]
          · rw [put_loc_self]
            exact still
        · have shows := serial.sound.shows pc enough bound rfl (posed.reaches d t)
          rw [← node]
          exact shows.1
      · exact serial.settled u t ⟨done.1, fun d x node sent => sending ⟨d, x, node, sent⟩⟩
  | send c w again pc =>
      have apart : Key.color u ≠ (w.command (s.loc c).node).1 := by
        intro same
        obtain ⟨⟨x, write⟩, node⟩ := write_of_color same.symm
        refine done.2 c x ?_ ?_
        · rw [put_loc_self]
          exact node
        · rw [put_loc_self, write]
          exact Or.inl rfl
      rw [put_net, send_net, Net.inFlight_write_other_key serial.sound.wf _ _ _ apart]
      apply serial.settled u t
      refine ⟨?_, ?_⟩
      · exact (mem_history_of_send (D.server c) done.1).resolve_right fun same => apart same.symm
      · intro d x node sent
        by_cases same : d = c
        · subst same
          rcases sent with waiting | again'
          · rw [pc] at waiting
            cases waiting
          · rw [pc] at again'
            cases again'
            exact apart (by rw [node]; rfl)
        · apply done.2 d x
          · rw [put_loc_other _ _ same]
            exact node
          · rw [put_loc_other _ _ same]
            exact sent
  | deliver r o key v front =>
      intro pending
      exact serial.settled u t done (Net.inFlight_of_replay pending)

theorem Serial.untouched_step (serial : Serial D s) (taken : StepCase D s a s') (u : ℕ)
    (o : Fin N) (x : ℤ) (unseen : u ∉ s'.history) : (.color u, x) ∉ s'.net.log o := by
  have before : u ∉ s.history := fun old => unseen (history_subset taken old)
  cases taken with
  | quiet c move l' quiet => exact serial.untouched u o x before
  | send c w again pc =>
      intro member
      rcases (Net.mem_write_log _ _ _ _ _ _).mp member with old | ⟨_, entry⟩
      · exact serial.untouched u o x before old
      · obtain ⟨⟨y, write⟩, node⟩ := write_of_color (congrArg Prod.fst entry).symm
        subst write
        apply unseen
        rw [← node]
        cases again with
        | false => exact List.mem_append_right _ (List.mem_singleton_self _)
        | true => exact serial.recorded.mem_of_colored serial.sound (by rw [pc]; rfl)
  | deliver t o' key v front => exact serial.untouched u o x before

theorem Serial.home_step (serial : Serial D s) (posed : D.Wellposed) (taken : StepCase D s a s')
    (c : Fin k) (u : ℕ) (owns : D.Owns c u) :
    s'.net.store (D.server c) (.color u) = some (greedy D.nbrs s'.history u) := by
  have old := serial.home c u owns
  cases taken with
  | quiet d move l' quiet => exact old
  | send d w again pc =>
      rw [put_net, put_history, send_net]
      by_cases same : Key.color u = (w.command (s.loc d).node).1
      · obtain ⟨⟨x, write⟩, node⟩ := write_of_color same.symm
        subst write node
        have client := posed.valid.owner_unique owns
          ((serial.sound.shape d).owns (by simp [pc, Pc.Active]))
        subst client
        rw [same, Net.write_store_self]
        cases again with
        | false => exact congrArg some (serial.color_sent pc).symm
        | true =>
            have sent := serial.sound.sent c (.color x) (Or.inr pc) rfl
            exact sent.symm.trans old
      · have other : u ≠ (s.loc d).node ∨ ∀ x, w ≠ .color x := by
          by_contra both
          simp only [not_or, not_forall, not_not] at both
          obtain ⟨node, x, write⟩ := both
          exact same (by rw [write, node]; rfl)
        rw [Net.write_store_other_key _ _ _ _ same, old]
        rcases other with node | write
        · rw [greedy_send s d _ w again node]
        · cases w with
          | color x => exact absurd rfl (write x)
          | flag lock => rfl
          | turn lock => rfl
          | status => rfl
          | release lock => rfl
  | deliver t o key v front =>
      have quiet := (serial.sound.tracks c (.color u) u owns rfl).not_inFlight_self
        serial.sound.wf
      exact (Net.replay_store_of_not_inFlight front quiet).trans old

/-- One step keeps the invariant, unless announcements of a turn cross or a status
is left from an earlier run. -/
theorem Serial.step (serial : Serial D s) (posed : D.Wellposed) (taken : StepCase D s a s')
    (clear : D.TurnClear s a) (fresh : D.StatusFresh s a) : Serial D s' where
  sound := serial.sound.step posed.valid taken
  recorded := serial.recorded.step posed.valid serial.sound taken
  edges := by
    intro c d L rivals
    apply (serial.edges c d L rivals).step posed.valid serial.sound rivals taken
    intro e K again action pc _
    subst action
    simpa only [Deployment.TurnClear, pc] using clear
  frozen := serial.frozen_step posed taken fresh
  read := serial.read_step posed taken
  settled := serial.settled_step posed taken
  untouched := serial.untouched_step taken
  home := serial.home_step posed taken

end Step

end DistributedColoring

import DistributedColoring.Bookkeeping
import DistributedColoring.PetersonLock

set_option autoImplicit false

/- The lock of one edge: what `acquire_lock` and `release_lock` do to it is
Peterson's protocol over the replicated store. -/
namespace DistributedColoring

open PetersonLock (Phase Edge Safe)
open ReplicatedLog

variable {k N : ℕ} {D : Deployment k N}

namespace ClientGraphPetersonLock

/-- The lock of the same edge as the client of the neighbour builds it. -/
def swap (lock : ClientGraphPetersonLock) : ClientGraphPetersonLock := ⟨lock.nbr, lock.node⟩

@[simp] theorem swap_swap (lock : ClientGraphPetersonLock) : lock.swap.swap = lock := rfl

@[simp] theorem bothId_swap (lock : ClientGraphPetersonLock) : lock.swap.bothId = lock.bothId := by
  unfold bothId swap
  dsimp only
  split <;> split
  · omega
  · rfl
  · rfl
  · have same : lock.node = lock.nbr := by omega
    rw [same]

theorem lockKey1_swap (lock : ClientGraphPetersonLock) : lock.swap.lockKey1 = lock.lockKey2 := by
  unfold lockKey1 lockKey2
  rw [bothId_swap]
  rfl

theorem turnKey_swap (lock : ClientGraphPetersonLock) : lock.swap.turnKey = lock.turnKey := by
  unfold turnKey
  rw [bothId_swap]

theorem eq_or_eq_swap_of_bothId {lock other : ClientGraphPetersonLock}
    (same : lock.bothId = other.bothId) : lock = other ∨ lock = other.swap := by
  obtain ⟨u, v⟩ := lock
  obtain ⟨x, y⟩ := other
  simp only [bothId, swap, mk.injEq] at *
  split at same <;> split at same <;> simp only [Prod.mk.injEq] at same <;> omega

theorem eq_of_lockKey1 {lock other : ClientGraphPetersonLock}
    (same : lock.lockKey1 = other.lockKey1) : lock = other := by
  unfold lockKey1 at same
  injection same with ids nodes
  rcases eq_or_eq_swap_of_bothId ids with equal | swapped
  · exact equal
  · subst swapped
    change other.nbr = other.node at nodes
    unfold swap
    rw [nodes]
    cases other
    simp_all

theorem lockKey1_ne_lockKey2 {lock : ClientGraphPetersonLock} (apart : lock.node ≠ lock.nbr) :
    lock.lockKey1 ≠ lock.lockKey2 := by
  unfold lockKey1 lockKey2
  intro same
  injection same with _ nodes
  exact apart nodes

/-- The lock as a Peterson lock between client `c` and the client `d` of the neighbour. -/
def edge (D : Deployment k N) (lock : ClientGraphPetersonLock) (c d : Fin k) :
    Edge (Fin N) Key ℤ (Reply ℤ) where
  server := D.server c
  peerServer := D.server d
  flag := lock.lockKey1
  peerFlag := lock.lockKey2
  turn := lock.turnKey
  name := lock.node
  peerName := lock.nbr
  one := 1
  view := .stored

theorem edge_swap (lock : ClientGraphPetersonLock) (c d : Fin k) :
    (lock.edge D c d).swap = lock.swap.edge D d c := by
  unfold edge Edge.swap
  simp only [lockKey1_swap, turnKey_swap, Edge.mk.injEq, true_and, and_true]
  rw [← lockKey1_swap lock.swap, swap_swap]
  exact ⟨rfl, rfl, rfl⟩

theorem edge_distinct {lock : ClientGraphPetersonLock} (apart : lock.node ≠ lock.nbr)
    (c d : Fin k) : (lock.edge D c d).Distinct :=
  ⟨lockKey1_ne_lockKey2 apart, by simp [edge, lockKey1, turnKey], by simp [edge, lockKey2, turnKey]⟩

end ClientGraphPetersonLock

/-- Where the program counter is in `acquire_lock` and `release_lock` for one lock. -/
def Pc.phase (L : ClientGraphPetersonLock) : Pc → Phase (Reply ℤ)
  | .set (.turn K) again =>
      if K = L then (if again then .announced else .raised) else .idle
  | .wait (.turn K) => if K = L then .announced else .idle
  | .spin K _ otherFlag turnVar => if K = L then .spinning otherFlag turnVar else .idle
  | .set (.release K) again => if K = L ∧ again = false then .held else .idle
  | _ => .idle

/-- An acquired lock stays in `locks` until its release loop reaches it. -/
def Local.phase (l : Local) (L : ClientGraphPetersonLock) : Phase (Reply ℤ) :=
  if L ∈ l.locks then .held else l.pc.phase L

/-- Between the return of `acquire_lock` and the first SET of `release_lock`. -/
def Local.Holds (l : Local) (L : ClientGraphPetersonLock) : Prop :=
  L ∈ l.locks ∨ l.pc = .set (.release L) false

theorem phase_of_holds {l : Local} {L : ClientGraphPetersonLock} (holds : l.Holds L) :
    l.phase L = .held := by
  unfold Local.phase
  rcases holds with held | pc
  · rw [if_pos held]
  · rw [pc]
    simp [Pc.phase]

theorem phase_of_idle {l : Local} {L : ClientGraphPetersonLock} (idle : l.pc.phase L = .idle) :
    l.phase L = if L ∈ l.locks then .held else .idle := by
  unfold Local.phase
  rw [idle]

theorem Started.phase {C : Client} {i : ℤ} {l : Local} (started : Started C i l)
    (L : ClientGraphPetersonLock) : l.phase L = .idle := by
  cases started <;> simp [Local.phase, Pc.phase]

theorem Resumed.phase {C : Client} {l l' : Local} (resumed : Resumed C l l')
    (L : ClientGraphPetersonLock) : l'.phase L = if L ∈ l.locks then .held else .idle := by
  cases resumed <;> rfl

theorem Released.phase {C : Client} {l l' : Local} (released : Released C l l')
    (L : ClientGraphPetersonLock) : l'.phase L = if L ∈ l.locks then .held else .idle := by
  cases released with
  | unlock K rest split =>
      rw [split]
      by_cases same : K = L
      · simp [Local.phase, Pc.phase, same]
      · simp [Local.phase, Pc.phase, same, Ne.symm same]
  | next l' empty started =>
      rw [started.phase, empty]
      simp

/-- The spin loop ends only on a lowered flag or on the other's turn. -/
theorem free_of_mustWait {otherFlag turnVar : Reply ℤ} {v : ℕ}
    (passed : mustWait otherFlag turnVar v = some false) :
    otherFlag ≠ .value 1 ∨ turnVar ≠ .value v := by
  by_contra stuck
  simp only [not_or, ne_eq, not_not] at stuck
  rw [stuck.1, stuck.2] at passed
  simp [mustWait, turnIsMine] at passed

theorem LockAnswer.step {s : State k N} {c d : Fin k} {L : ClientGraphPetersonLock} {r : LockRead}
    {oldFlag oldTurn newFlag newTurn : Option (Reply ℤ)}
    (answer : LockAnswer s (D.server c) L r oldFlag oldTurn newFlag newTurn) :
    PetersonLock.Step (L.edge D c d) s.net (.spinning oldFlag oldTurn)
      (.spinning newFlag newTurn) := by
  cases answer with
  | otherFlag => exact .readFlag _
  | turnVar => exact .readTurn _

/-- The test of the spin loop once both replies are there. -/
theorem Spun.phase {l l' : Local} {L : ClientGraphPetersonLock}
    {otherFlag turnVar : Option (Reply ℤ)} (spun : Spun l L otherFlag turnVar l')
    (free : L ∉ l.locks) (net : Net (Fin N) Key ℤ) (c d : Fin k) :
    Relation.ReflTransGen (PetersonLock.Step (L.edge D c d) net) (.spinning otherFlag turnVar)
      (l'.phase L) := by
  cases spun with
  | wait inLoop =>
      simp only [Local.phase, if_neg free, Pc.phase, if_true]
      exact .refl
  | retry flag turn flags turns =>
      subst flags turns
      apply Relation.ReflTransGen.single
      simp only [Local.phase, if_neg free, Pc.phase, if_true]
      exact .retry flag turn
  | enter flag turn flags turns passed =>
      subst flags turns
      apply Relation.ReflTransGen.single
      simp only [Local.phase, List.mem_append, List.mem_singleton, or_true, if_true]
      exact .enter flag turn (free_of_mustWait passed)
  | crash flag turn flags turns failed =>
      apply Relation.ReflTransGen.single
      simp only [Local.phase, if_neg free, Pc.phase]
      exact .abandon _ _

theorem Spun.other_phase {l l' : Local} {K L : ClientGraphPetersonLock}
    {otherFlag turnVar : Option (Reply ℤ)} (spun : Spun l K otherFlag turnVar l') (other : K ≠ L) :
    l'.phase L = if L ∈ l.locks then .held else .idle := by
  cases spun <;> simp [Local.phase, Pc.phase, other, Ne.symm other]

/-- On each lock, a step that writes nothing is a step of Peterson's protocol. -/
theorem Quiet.phase {s : State k N} {c d : Fin k} {move : Move} {l' : Local}
    (quiet : Quiet D s c move l') (sound : Sound D s) (reaches : D.Reaches c (D.server d))
    (L : ClientGraphPetersonLock) :
    Relation.ReflTransGen (PetersonLock.Step (L.edge D c d) s.net) ((s.loc c).phase L)
      (l'.phase L) := by
  have stay : ∀ {p q : Phase (Reply ℤ)}, p = q →
      Relation.ReflTransGen (PetersonLock.Step (L.edge D c d) s.net) p q := by
    intro p q same
    rw [same]
  cases quiet with
  | neighbours reply pc members => exact stay (by simp [Local.phase, Pc.phase, pc])
  | boundary reply l' pc resumed =>
      exact stay (by rw [resumed.phase, phase_of_idle (by rw [pc]; rfl)])
  | mustLock u pc status => exact stay (by simp [Local.phase, Pc.phase, pc])
  | skipLock u pc status => exact stay (by simp [Local.phase, Pc.phase, pc])
  | color u l' pc resumed =>
      exact stay (by rw [resumed.phase, phase_of_idle (by rw [pc]; rfl)])
  | resend w acks pc =>
      apply stay
      cases w <;> simp [Local.phase, Pc.phase, pc]
  | written w acks pc enough bound =>
      cases w with
      | flag K =>
          by_cases same : K = L
          · subst same
            have node := ((sound.shape c).lock K (Or.inr (by rw [pc]; rfl))).1
            have shows := sound.shows pc enough bound (congrArg some node) reaches
            have free := (sound.shape c).lock_notMem K (by rw [pc]; rfl)
            apply Relation.ReflTransGen.single
            simp only [Local.phase, if_neg free, pc, Pc.phase, Client.written, if_true]
            exact .raise shows
          · exact stay (by simp [Local.phase, Pc.phase, pc, Client.written, same])
      | turn K =>
          by_cases same : K = L
          · subst same
            have free := (sound.shape c).lock_notMem K (by rw [pc]; rfl)
            apply Relation.ReflTransGen.single
            simp only [Local.phase, if_neg free, pc, Pc.phase, Client.written, if_true]
            exact .spin
          · exact stay (by simp [Local.phase, Pc.phase, pc, Client.written, same])
      | color x => exact stay (phase_of_idle (by rw [pc]; rfl))
      | status =>
          apply stay
          change _ = ((D.client c).releaseNext (s.loc c)).phase L
          rw [(releaseNext_released _ _).phase, phase_of_idle (by rw [pc]; rfl)]
      | release K =>
          apply stay
          change _ = ((D.client c).releaseNext (s.loc c)).phase L
          rw [(releaseNext_released _ _).phase, phase_of_idle (by rw [pc]; rfl)]
  | read K inLoop r oldFlag oldTurn newFlag newTurn pc answer =>
      by_cases same : K = L
      · subst same
        have free := (sound.shape c).lock_notMem K (by rw [pc]; rfl)
        have before : (s.loc c).phase K = .spinning oldFlag oldTurn := by
          simp only [Local.phase, if_neg free, pc, Pc.phase, if_true]
        rw [before]
        exact (Relation.ReflTransGen.single answer.step).trans
          ((onLockReads_spun (s.loc c) K inLoop newFlag newTurn).phase free s.net c d)
      · apply stay
        rw [(onLockReads_spun (s.loc c) K inLoop newFlag newTurn).other_phase same, phase_of_idle]
        simp [pc, Pc.phase, same]

/-- The writes that touch a flag or a turn key of a given lock. -/
theorem write_of_lockKey1 {w : Write} {v : ℕ} {L : ClientGraphPetersonLock}
    (same : (w.command v).1 = L.lockKey1) : w = .flag L ∨ w = .release L := by
  cases w with
  | flag K => exact Or.inl (by rw [ClientGraphPetersonLock.eq_of_lockKey1 same])
  | release K => exact Or.inr (by rw [ClientGraphPetersonLock.eq_of_lockKey1 same])
  | turn K => cases same
  | color x => cases same
  | status => cases same

theorem write_of_turnKey {w : Write} {v : ℕ} {L : ClientGraphPetersonLock}
    (same : (w.command v).1 = L.turnKey) : w = .turn L ∨ w = .turn L.swap := by
  cases w with
  | turn K =>
      injection same with ids
      exact (ClientGraphPetersonLock.eq_or_eq_swap_of_bothId ids).imp (congrArg _) (congrArg _)
  | flag K => cases same
  | release K => cases same
  | color x => cases same
  | status => cases same

/-- A SET about another lock or about no lock leaves the phase alone. -/
theorem phase_of_other_write {l : Local} {w : Write} {again : Bool} (pc : l.pc = .set w again)
    {L : ClientGraphPetersonLock} (other : w.lock? ≠ some L) :
    ({ l with pc := .wait w } : Local).phase L = l.phase L := by
  cases w with
  | flag K => simp [Local.phase, Pc.phase, pc]
  | turn K =>
      have apart : K ≠ L := fun same => other (by rw [same]; rfl)
      simp [Local.phase, Pc.phase, pc, apart]
  | color x => simp [Local.phase, Pc.phase, pc]
  | status => simp [Local.phase, Pc.phase, pc]
  | release K =>
      have apart : K ≠ L := fun same => other (by rw [same]; rfl)
      simp [Local.phase, Pc.phase, pc, apart]

/-- Two clients with the two ends of an edge. -/
structure Ends (D : Deployment k N) (c d : Fin k) (L : ClientGraphPetersonLock) : Prop where
  apart : c ≠ d
  node : D.Owns c L.node
  nbr : D.Owns d L.nbr

theorem Ends.swap {c d : Fin k} {L : ClientGraphPetersonLock} (ends : Ends D c d L) :
    Ends D d c L.swap :=
  ⟨ends.apart.symm, ends.nbr, ends.node⟩

theorem Ends.distinct (valid : D.Valid) {c d : Fin k} {L : ClientGraphPetersonLock}
    (ends : Ends D c d L) : L.node ≠ L.nbr := by
  intro same
  have nbr := ends.nbr
  rw [← same] at nbr
  exact ends.apart (valid.owner_unique ends.node nbr)

/-- The two ends of an edge, each within reach of the SETs of the other. -/
structure Rivals (D : Deployment k N) (c d : Fin k) (L : ClientGraphPetersonLock) : Prop
    extends Ends D c d L where
  reaches : D.Reaches c (D.server d)
  reached : D.Reaches d (D.server c)

theorem Rivals.swap {c d : Fin k} {L : ClientGraphPetersonLock} (rivals : Rivals D c d L) :
    Rivals D d c L.swap :=
  ⟨rivals.toEnds.swap, rivals.reached, rivals.reaches⟩

/-- The invariant of the lock of one edge in a state of the deployment. -/
def EdgeSafe (D : Deployment k N) (s : State k N) (c d : Fin k) (L : ClientGraphPetersonLock) :
    Prop :=
  Safe (L.edge D c d) s.net ((s.loc c).phase L) ((s.loc d).phase L.swap)

theorem EdgeSafe.symm {s : State k N} {c d : Fin k} {L : ClientGraphPetersonLock}
    (safe : EdgeSafe D s c d L) : EdgeSafe D s d c L.swap := by
  unfold EdgeSafe at *
  rw [← ClientGraphPetersonLock.edge_swap]
  exact safe.symm

/-- A SET of the client at one end. -/
theorem EdgeSafe.send {s : State k N} {c d : Fin k} {L : ClientGraphPetersonLock}
    (safe : EdgeSafe D s c d L) (valid : D.Valid) (sound : Sound D s) (rivals : Rivals D c d L)
    {w : Write} {again : Bool} (pc : (s.loc c).pc = .set w again)
    (clear : w = .turn L → ¬ s.net.InFlight (D.server c) L.turnKey) :
    EdgeSafe D ((s.send c (D.server c) w again).put c { s.loc c with pc := .wait w }) c d L := by
  have distinct := ClientGraphPetersonLock.edge_distinct (D := D) (rivals.toEnds.distinct valid) c d
  have node : ∀ K, w.lock? = some K → K.node = (s.loc c).node := by
    intro K mentioned
    exact ((sound.shape c).lock K (Or.inr (by rw [pc]; exact mentioned))).1
  have owns : D.Owns c (s.loc c).node := (sound.shape c).owns (by simp [pc, Pc.Active])
  have notSwap : w.lock? ≠ some L.swap := by
    intro mentioned
    rw [← node _ mentioned] at owns
    exact rivals.apart (valid.owner_unique owns rivals.nbr)
  unfold EdgeSafe at *
  rw [put_loc_self, put_loc_other _ _ rivals.apart.symm, put_net, send_net, send_loc]
  by_cases mine : w.lock? = some L
  · have free := (sound.shape c).lock_notMem L (by rw [pc]; exact mine)
    cases w with
    | flag K =>
        cases mine
        have idle : ({ s.loc c with pc := .wait (.flag L) } : Local).phase L = .idle := by
          simp [Local.phase, free, Pc.phase]
        rw [idle]
        exact safe.lower sound.wf distinct _ _
    | release K =>
        cases mine
        have idle : ({ s.loc c with pc := .wait (.release L) } : Local).phase L = .idle := by
          simp [Local.phase, free, Pc.phase]
        rw [idle]
        exact safe.lower sound.wf distinct _ _
    | turn K =>
        cases mine
        have after : ({ s.loc c with pc := .wait (.turn L) } : Local).phase L = .announced := by
          simp [Local.phase, free, Pc.phase]
        have before : (s.loc c).phase L = .raised ∨ (s.loc c).phase L = .announced := by
          cases again <;> simp [Local.phase, free, Pc.phase, pc]
        rw [after]
        exact safe.announce sound.wf distinct before (clear rfl)
    | color x => cases mine
    | status => cases mine
  · rw [phase_of_other_write pc mine]
    apply safe.write_other sound.wf
    · intro same
      rcases write_of_lockKey1 same.symm with flag | release
      · exact mine (by rw [flag]; rfl)
      · exact mine (by rw [release]; rfl)
    · intro same
      change L.lockKey2 = _ at same
      rw [← L.lockKey1_swap] at same
      rcases write_of_lockKey1 same.symm with flag | release
      · exact notSwap (by rw [flag]; rfl)
      · exact notSwap (by rw [release]; rfl)
    · intro same
      rcases write_of_turnKey same.symm with turn | turn
      · exact mine (by rw [turn]; rfl)
      · exact notSwap (by rw [turn]; rfl)

/-- Only the clients at the two ends announce the turn of an edge. -/
theorem turn_sender {s : State k N} {c d e : Fin k} {L : ClientGraphPetersonLock}
    (valid : D.Valid) (sound : Sound D s) (ends : Ends D c d L) {w : Write} {again : Bool}
    (pc : (s.loc e).pc = .set w again)
    (same : (w.command (s.loc e).node).1 = L.turnKey) : e = c ∨ e = d := by
  have owns : D.Owns e (s.loc e).node := (sound.shape e).owns (by simp [pc, Pc.Active])
  have node : ∀ K, w = .turn K → K.node = (s.loc e).node := by
    intro K turn
    exact ((sound.shape e).lock K (Or.inr (by rw [pc, turn]; rfl))).1
  rcases write_of_turnKey same with turn | turn
  · rw [← node _ turn] at owns
    exact Or.inl (valid.owner_unique owns ends.node)
  · rw [← node _ turn] at owns
    exact Or.inr (valid.owner_unique owns ends.nbr)

/-- A SET of a client at neither end. -/
theorem EdgeSafe.send_other {s : State k N} {c d e : Fin k} {L : ClientGraphPetersonLock}
    (safe : EdgeSafe D s c d L) (valid : D.Valid) (sound : Sound D s) (rivals : Rivals D c d L)
    {w : Write} {again : Bool} (pc : (s.loc e).pc = .set w again) (notC : c ≠ e) (notD : d ≠ e) :
    EdgeSafe D ((s.send e (D.server e) w again).put e { s.loc e with pc := .wait w }) c d L := by
  unfold EdgeSafe at *
  rw [put_loc_other _ _ notC, put_loc_other _ _ notD, put_net, send_net, send_loc]
  apply safe.write_other sound.wf
  · exact sound.key_apart valid pc notC rivals.node rfl
  · exact sound.key_apart valid pc notD rivals.nbr rfl
  · intro same
    rcases turn_sender valid sound rivals.toEnds pc same.symm with isC | isD
    · exact notC isC.symm
    · exact notD isD.symm

/-- A turn key reaches a server only with the name of the node at the other one. -/
theorem turn_value_of_front {s : State k N} {c d : Fin k} {L : ClientGraphPetersonLock}
    (valid : D.Valid) (sound : Sound D s) (ends : Ends D c d L) {o : Fin N} {v : ℤ}
    {rest : List (Key × ℤ)}
    (front : (s.net.log o).drop (s.net.seen (D.server d) o) = (L.turnKey, v) :: rest) :
    v = L.node := by
  obtain ⟨e, x, server, owns, writer | ⟨u, ids, value⟩⟩ :=
    sound.origin _ _ _ (Net.mem_log_of_front front)
  · cases writer
  · injection ids with ids
    rcases ClientGraphPetersonLock.eq_or_eq_swap_of_bothId ids with equal | swapped
    · rw [value, equal]
    · have same : x = L.nbr := by rw [swapped]; rfl
      subst same
      have client := valid.owner_unique owns ends.nbr
      subst client server
      exact absurd rfl (Net.apart_of_front sound.wf front)

/-- One step keeps the invariant of an edge, if no announcement of the turn crosses
another one. -/
theorem EdgeSafe.step {s s' : State k N} {a : Action k N} {c d : Fin k}
    {L : ClientGraphPetersonLock} (safe : EdgeSafe D s c d L) (valid : D.Valid)
    (sound : Sound D s) (rivals : Rivals D c d L) (taken : StepCase D s a s')
    (clear : ∀ e K again, a = .client e .set → (s.loc e).pc = .set (.turn K) again →
      K.turnKey = L.turnKey → ¬ s.net.InFlight (D.server e) K.turnKey) :
    EdgeSafe D s' c d L := by
  cases taken with
  | quiet e move l' quiet =>
      by_cases isC : c = e
      · subst isC
        unfold EdgeSafe at *
        rw [put_loc_self, put_loc_other s l' rivals.apart.symm, put_net]
        exact safe.steps (quiet.phase sound rivals.reaches L)
      · by_cases isD : d = e
        · subst isD
          have safe' := safe.symm
          apply EdgeSafe.symm (L := L.swap)
          unfold EdgeSafe at *
          rw [put_loc_self, put_loc_other s l' rivals.apart, put_net]
          exact safe'.steps (quiet.phase sound rivals.reached L.swap)
        · unfold EdgeSafe at *
          rw [put_loc_other s l' isC, put_loc_other s l' isD, put_net]
          exact safe
  | send e w again pc =>
      by_cases isC : c = e
      · subst isC
        apply safe.send valid sound rivals pc
        intro turn
        subst turn
        exact clear c L again rfl pc rfl
      · by_cases isD : d = e
        · subst isD
          apply EdgeSafe.symm (L := L.swap)
          apply safe.symm.send valid sound rivals.swap pc
          intro turn
          subst turn
          exact clear d L.swap again rfl pc L.turnKey_swap
        · exact safe.send_other valid sound rivals pc isC isD
  | deliver t o key v front =>
      apply Safe.replay safe front
      · intro receiver turn
        subst receiver turn
        exact turn_value_of_front valid sound rivals.toEnds front
      · intro receiver turn
        subst receiver turn
        change (s.net.log o).drop (s.net.seen (D.server c) o) = (L.turnKey, v) :: _ at front
        rw [← L.turnKey_swap] at front
        exact turn_value_of_front valid sound rivals.toEnds.swap front

theorem start_phase (c : Fin k) (L : ClientGraphPetersonLock) :
    (D.client c).start.phase L = .idle := by
  unfold Client.start
  split
  · simp [Local.phase, Pc.phase]
  · exact (processAt_started _ _).phase L

theorem start_edgeSafe (store : Key → Option ℤ) (c d : Fin k) (L : ClientGraphPetersonLock) :
    EdgeSafe D (D.start store) c d L := by
  unfold EdgeSafe
  change Safe _ _ ((D.client c).start.phase L) ((D.client d).start.phase L.swap)
  rw [start_phase, start_phase]
  exact PetersonLock.safe_idle

/-- With both ends at one server, no announcement of the turn is ever under way to it. -/
theorem turn_not_inFlight {s : State k N} {c d : Fin k} {L : ClientGraphPetersonLock}
    (valid : D.Valid) (sound : Sound D s) (ends : Ends D c d L)
    (server : D.server c = D.server d) : ¬ s.net.InFlight (D.server c) L.turnKey := by
  intro pending
  obtain ⟨o, v, member⟩ := pending
  obtain ⟨e, x, atServer, owns, writer | ⟨u, ids, value⟩⟩ :=
    sound.origin _ _ _ (List.mem_of_mem_drop member)
  · cases writer
  · injection ids with ids
    have home : o = D.server c := by
      rcases ClientGraphPetersonLock.eq_or_eq_swap_of_bothId ids with equal | swapped
      · have same : x = L.node := by rw [equal]
        subst same
        rw [← atServer, valid.owner_unique owns ends.node]
      · have same : x = L.nbr := by rw [swapped]; rfl
        subst same
        rw [← atServer, valid.owner_unique owns ends.nbr, server]
    subst home
    rw [sound.wf.own, List.drop_length] at member
    cases member

/-- Clients at the two ends of an edge and at one server never both hold its lock,
whatever the servers held at the start and in whatever order the spin loop reads. -/
theorem edge_lock_exclusive (D : Deployment k N) (valid : D.Valid) (store : Key → Option ℤ)
    {s : State k N} (run : GuardedRun.Reaches D.step (D.start store) s) {c d : Fin k} {u v : ℕ}
    (ownsU : D.Owns c u) (ownsV : D.Owns d v) (apart : c ≠ d)
    (server : D.server c = D.server d) :
    ¬ ((s.loc c).Holds ⟨u, v⟩ ∧ (s.loc d).Holds ⟨v, u⟩) := by
  have rivals : Rivals D c d ⟨u, v⟩ :=
    ⟨⟨apart, ownsU, ownsV⟩, Or.inl server.symm, Or.inl server⟩
  have invariant : Sound D s ∧ EdgeSafe D s c d ⟨u, v⟩ := by
    apply run.invariant (P := fun x => Sound D x ∧ EdgeSafe D x c d ⟨u, v⟩)
    · exact ⟨start_sound store, start_edgeSafe store c d ⟨u, v⟩⟩
    · intro x a y both _ taken
      obtain ⟨sound, safe⟩ := both
      have cases := step_cases taken
      refine ⟨sound.step valid cases, safe.step valid sound rivals cases ?_⟩
      intro e K again _ pc sameTurn
      have quiet := turn_not_inFlight valid sound rivals.toEnds server
      rw [sameTurn]
      rcases turn_sender valid sound rivals.toEnds pc sameTurn with isC | isD
      · rw [isC]
        exact quiet
      · rw [isD, ← server]
        exact quiet
  intro both
  exact invariant.2.exclusive (phase_of_holds both.1) (phase_of_holds both.2)

instance (l : Local) (L : ClientGraphPetersonLock) : Decidable (l.Holds L) :=
  inferInstanceAs (Decidable (_ ∨ _))

/-- On one server both clients compete for the edge and client 0 is let in. -/
theorem oneEdge_lock_exclusive :
    ∃ s, GuardedRun.Reaches (oneEdge (fun _ => (0 : Fin 1)) 0).step
        ((oneEdge (fun _ => (0 : Fin 1)) 0).start fun _ => none) s ∧
      ((s.loc 0).Holds ⟨0, 1⟩ ∧ ∃ f t, (s.loc 1).pc = .spin ⟨1, 0⟩ true f t) ∧
      ¬ ((s.loc 0).Holds ⟨0, 1⟩ ∧ (s.loc 1).Holds ⟨1, 0⟩) := by
  obtain ⟨s, run, held, spinning⟩ := GuardedRun.exists_run_of_exec
    (oneEdge (fun _ => (0 : Fin 1)) 0).step (fun _ _ => True)
    ((oneEdge (fun _ => (0 : Fin 1)) 0).start fun _ => none)
    (fun s => (s.loc 0).Holds ⟨0, 1⟩ ∧ (s.loc 1).pc = .spin ⟨1, 0⟩ true none none)
    [.client 0 (.smembers [1]), .client 0 (.smembers [1]), .client 0 .get,
      .client 1 (.smembers [0]), .client 1 (.smembers [0]), .client 1 .get,
      .client 0 .set, .client 1 .set, .client 0 (.wait 0), .client 1 (.wait 0),
      .client 0 .set, .client 1 .set, .client 0 (.wait 0), .client 1 (.wait 0),
      .client 1 (.lockGet .otherFlag), .client 0 (.lockGet .otherFlag),
      .client 1 (.lockGet .turnVar), .client 0 (.lockGet .turnVar)] (by decide)
  refine ⟨s, run, ⟨held, none, none, spinning⟩, ?_⟩
  exact edge_lock_exclusive _ (oneEdge_valid _ _) _ run ⟨0, by decide, by decide, rfl⟩
    ⟨1, by decide, by decide, rfl⟩ (by decide) rfl

end DistributedColoring

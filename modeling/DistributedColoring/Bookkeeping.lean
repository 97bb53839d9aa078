import DistributedColoring.LocalShape

set_option autoImplicit false

/- Who writes which key, and what the servers know of it. Nothing here depends on
the order of replays or on how many acknowledgements a client waits for. -/
namespace DistributedColoring

open ReplicatedLog

variable {k N : ℕ} {D : Deployment k N}

/-- The node whose client alone writes a key; a turn key has two writers. -/
def Key.writer : Key → Option ℕ
  | .color v => some v
  | .status v => some v
  | .flag _ v => some v
  | .turn _ => none

namespace Deployment

/-- Client `c` processes node `v`: `v` is `keys[i]` for an index of its range. -/
def Owns (D : Deployment k N) (c : Fin k) (v : ℕ) : Prop :=
  ∃ i, D.firstNode c ≤ i ∧ i ≤ D.lastNode c ∧ (D.client c).keyAt i = some v

/-- The keys are distinct and the ranges of the clients disjoint. -/
structure Valid (D : Deployment k N) : Prop where
  nodup : D.keys.Nodup
  disjoint : ∀ c d i, D.firstNode c ≤ i → i ≤ D.lastNode c → D.firstNode d ≤ i →
    i ≤ D.lastNode d → c = d

theorem keyAt_injective (nodup : D.keys.Nodup) {c d : Fin k} {i j : ℤ} {v : ℕ}
    (hi : (D.client c).keyAt i = some v) (hj : (D.client d).keyAt j = some v) : i = j := by
  unfold Client.keyAt at hi hj
  split at hi
  · split at hj
    · change D.keys[i.toNat]? = some v at hi
      change D.keys[j.toNat]? = some v at hj
      have bound := (List.getElem?_eq_some_iff.mp hi).1
      have same := (List.getElem?_inj bound nodup).mp (hi.trans hj.symm)
      omega
    · cases hj
  · cases hi

theorem Valid.owner_unique (valid : D.Valid) {c d : Fin k} {v : ℕ} (hc : D.Owns c v)
    (hd : D.Owns d v) : c = d := by
  obtain ⟨i, lowI, highI, atI⟩ := hc
  obtain ⟨j, lowJ, highJ, atJ⟩ := hd
  have same := keyAt_injective valid.nodup atI atJ
  subst same
  exact valid.disjoint c d i lowI highI lowJ highJ

end Deployment

theorem oneEdge_valid (server : Fin 2 → Fin N) (required : ℕ) :
    (oneEdge server required).Valid where
  nodup := by simp [oneEdge]
  disjoint := by
    intro c d i lowC highC lowD highD
    simp only [oneEdge] at *
    omega

theorem Shape.owns {c : Fin k} {l : Local} (shape : Shape D c l) (active : l.pc.Active) :
    D.Owns c l.node :=
  ⟨l.i, shape.low, (shape.node active).2, (shape.node active).1⟩

/-- The SET of `w` has been sent at least once and not yet been acknowledged. -/
def Pc.Sent (pc : Pc) (w : Write) : Prop := pc = .wait w ∨ pc = .set w true

/-- An entry of the log of server `o` was sent by a client of `o`. -/
def Origin (D : Deployment k N) (o : Fin N) (key : Key) (value : ℤ) : Prop :=
  ∃ c v, D.server c = o ∧ D.Owns c v ∧
    (key.writer = some v ∨ ∃ u, key = .turn (ClientGraphPetersonLock.mk v u).bothId ∧ value = v)

structure Sound (D : Deployment k N) (s : State k N) : Prop where
  shape : ∀ c, Shape D c (s.loc c)
  wf : s.net.WellFormed
  origin : ∀ o key value, (key, value) ∈ s.net.log o → Origin D o key value
  mark : ∀ c key value v, (key, value) ∈ (s.net.log (D.server c)).drop (s.mark c) →
    key.writer = some v → ¬ D.Owns c v
  tracks : ∀ c key v, D.Owns c v → key.writer = some v → s.net.Tracks key (D.server c)
  sent : ∀ c w, (s.loc c).pc.Sent w →
    (w.command (s.loc c).node).1.writer = some (s.loc c).node →
    s.net.store (D.server c) (w.command (s.loc c).node).1 =
      some (w.command (s.loc c).node).2

/-- The key of a SET is the client's own, or the turn key of the lock in hand. -/
theorem command_origin {c : Fin k} {l : Local} (shape : Shape D c l) {w : Write} {again : Bool}
    (pc : l.pc = .set w again) :
    ((w.command l.node).1.writer = some l.node ∧ ∀ lock, w ≠ .turn lock) ∨
      ∃ u, w = .turn ⟨l.node, u⟩ := by
  have here := fun lock (member : w.lock? = some lock) =>
    (shape.lock lock (Or.inr (by rw [pc]; exact member))).1
  cases w with
  | flag lock => exact Or.inl ⟨congrArg some (here lock rfl), by simp⟩
  | turn lock =>
      refine Or.inr ⟨lock.nbr, ?_⟩
      rw [← here lock rfl]
  | color x => exact Or.inl ⟨rfl, by simp⟩
  | status => exact Or.inl ⟨rfl, by simp⟩
  | release lock => exact Or.inl ⟨congrArg some (here lock rfl), by simp⟩

theorem Started.not_sent {C : Client} {i : ℤ} {l : Local} (started : Started C i l) (w : Write) :
    ¬ l.pc.Sent w := by
  cases started <;> simp [Pc.Sent]

theorem Released.not_sent {C : Client} {l l' : Local} (released : Released C l l') (w : Write) :
    ¬ l'.pc.Sent w := by
  cases released with
  | unlock lock rest split => simp [Pc.Sent]
  | next l' empty started => exact started.not_sent w

theorem Resumed.not_sent {C : Client} {l l' : Local} (resumed : Resumed C l l') (w : Write) :
    ¬ l'.pc.Sent w := by
  cases resumed <;> simp [Pc.Sent]

theorem Spun.not_sent {l l' : Local} {lock : ClientGraphPetersonLock}
    {otherFlag turnVar : Option (Reply ℤ)} (spun : Spun l lock otherFlag turnVar l') (w : Write) :
    ¬ l'.pc.Sent w := by
  cases spun <;> simp [Pc.Sent]

/-- Without a SET, a client has a SET behind it only where it waited before. -/
theorem Quiet.resent {s : State k N} {c : Fin k} {move : Move} {l' : Local}
    (quiet : Quiet D s c move l') {w : Write} (sent : l'.pc.Sent w) :
    (s.loc c).pc = .wait w ∧ l'.node = (s.loc c).node := by
  cases quiet with
  | neighbours reply pc members => simp [Pc.Sent] at sent
  | boundary reply l' pc resumed => exact absurd sent (resumed.not_sent w)
  | mustLock u pc status => simp [Pc.Sent] at sent
  | skipLock u pc status => simp [Pc.Sent] at sent
  | color u l' pc resumed => exact absurd sent (resumed.not_sent w)
  | resend v acks pc =>
      have same : v = w := by simpa [Pc.Sent] using sent
      rw [← same]
      exact ⟨pc, rfl⟩
  | written v acks pc enough bound =>
      cases v with
      | flag lock => simp [Client.written, Pc.Sent] at sent
      | turn lock => simp [Client.written, Pc.Sent] at sent
      | color x => simp [Client.written, Pc.Sent] at sent
      | status => exact absurd sent ((releaseNext_released _ _).not_sent w)
      | release lock => exact absurd sent ((releaseNext_released _ _).not_sent w)
  | read lock inLoop r oldFlag oldTurn newFlag newTurn pc answer =>
      exact absurd sent ((onLockReads_spun _ _ _ _ _).not_sent w)

theorem start_not_sent (c : Fin k) (w : Write) : ¬ (D.client c).start.pc.Sent w := by
  unfold Client.start
  split
  · simp [Pc.Sent]
  · exact (processAt_started _ _).not_sent w

theorem start_sound (store : Key → Option ℤ) : Sound D (D.start store) where
  shape := start_shape
  wf := Net.start_wellFormed _
  origin := by
    intro o key value member
    cases member
  mark := by
    intro c key value v member
    simp [Deployment.start, Net.start] at member
  tracks := fun _ _ _ _ _ => Net.tracks_start fun _ => rfl
  sent := fun c w sent => absurd sent (start_not_sent c w)

theorem Sound.origin_of_send {s : State k N} (sound : Sound D s) {c : Fin k} {w : Write}
    {again : Bool} (pc : (s.loc c).pc = .set w again) :
    Origin D (D.server c) (w.command (s.loc c).node).1 (w.command (s.loc c).node).2 := by
  have owns : D.Owns c (s.loc c).node := (sound.shape c).owns (by simp [pc, Pc.Active])
  rcases command_origin (sound.shape c) pc with ⟨writer, _⟩ | ⟨u, turn⟩
  · exact ⟨c, _, rfl, owns, Or.inl writer⟩
  · refine ⟨c, _, rfl, owns, Or.inr ⟨u, ?_, ?_⟩⟩ <;> rw [turn] <;> rfl

/-- A key of one client is not written by a SET of another. -/
theorem Sound.key_apart {s : State k N} (valid : D.Valid) (sound : Sound D s) {c d : Fin k}
    {w : Write} {again : Bool} (pc : (s.loc c).pc = .set w again) (other : d ≠ c) {key : Key}
    {v : ℕ} (owns : D.Owns d v) (writer : key.writer = some v) :
    key ≠ (w.command (s.loc c).node).1 := by
  intro same
  rcases command_origin (sound.shape c) pc with ⟨mine, _⟩ | ⟨u, turn⟩
  · rw [same, mine] at writer
    cases writer
    exact other (valid.owner_unique owns ((sound.shape c).owns (by simp [pc, Pc.Active])))
  · rw [same, turn] at writer
    cases writer

theorem Sound.mark_send {s : State k N} (valid : D.Valid) (sound : Sound D s) {c : Fin k}
    {w : Write} {again : Bool} (pc : (s.loc c).pc = .set w again) (d : Fin k) (key : Key)
    (value : ℤ) (v : ℕ)
    (member : (key, value) ∈ ((s.send c (D.server c) w again).net.log (D.server d)).drop
      ((s.send c (D.server c) w again).mark d)) (writer : key.writer = some v) :
    ¬ D.Owns d v := by
  intro owns
  by_cases same : d = c
  · subst same
    simp [State.send, Net.write] at member
  · have oldMark : (s.send c (D.server c) w again).mark d = s.mark d := by
      simp [State.send, same]
    rw [oldMark, send_net] at member
    by_cases server : D.server d = D.server c
    · rw [server, Net.write_log_self, List.drop_append, List.mem_append] at member
      rcases member with old | entry
      · rw [← server] at old
        exact sound.mark d key value v old writer owns
      · have apart := sound.key_apart valid pc same owns writer
        exact apart (congrArg Prod.fst (List.mem_singleton.mp (List.mem_of_mem_drop entry)))
    · rw [Net.write_log_other _ _ _ server] at member
      exact sound.mark d key value v member writer owns

theorem Sound.tracks_send {s : State k N} (valid : D.Valid) (sound : Sound D s) {c : Fin k}
    {w : Write} {again : Bool} (pc : (s.loc c).pc = .set w again) (d : Fin k) (key : Key)
    (v : ℕ) (owns : D.Owns d v) (writer : key.writer = some v) :
    (s.send c (D.server c) w again).net.Tracks key (D.server d) := by
  have old := sound.tracks d key v owns writer
  by_cases same : key = (w.command (s.loc c).node).1
  · have client : d = c := by
      by_contra other
      exact sound.key_apart valid pc other owns writer same
    subst client same
    exact old.write_self sound.wf _
  · exact old.write_other sound.wf _ _ same

theorem Sound.step {s s' : State k N} {a : Action k N} (valid : D.Valid) (sound : Sound D s)
    (taken : StepCase D s a s') : Sound D s' := by
  have shape := shape_step taken sound.shape
  have home : ∀ c w, (s.loc c).pc.Sent w → (w.command (s.loc c).node).1.writer =
      some (s.loc c).node → D.Owns c (s.loc c).node := by
    intro c w sent _
    apply (sound.shape c).owns
    rcases sent with pc | pc <;> simp [pc, Pc.Active]
  cases taken with
  | quiet c move l' quiet =>
      refine ⟨shape, sound.wf, sound.origin, sound.mark, sound.tracks, ?_⟩
      intro d w sent writer
      by_cases same : d = c
      · subst same
        rw [put_loc_self] at sent writer ⊢
        obtain ⟨pc, node⟩ := quiet.resent sent
        rw [node] at writer ⊢
        exact sound.sent d w (Or.inl pc) writer
      · rw [put_loc_other s l' same] at sent writer ⊢
        exact sound.sent d w sent writer
  | send c w again pc =>
      have fresh := sound.origin_of_send pc
      refine ⟨shape, Net.write_wellFormed sound.wf _ _ _, ?_, sound.mark_send valid pc,
        sound.tracks_send valid pc, ?_⟩
      · intro o key value member
        rcases (Net.mem_write_log _ _ _ _ _ _).mp member with old | ⟨same, entry⟩
        · exact sound.origin o key value old
        · cases entry
          rw [same]
          exact fresh
      · intro d w' sent writer
        by_cases same : d = c
        · subst same
          rw [put_loc_self] at sent writer ⊢
          have write : w = w' := by simpa [Pc.Sent] using sent
          subst write
          exact Net.write_store_self _ _ _ _
        · rw [put_loc_other _ _ same] at sent writer ⊢
          have apart := sound.key_apart valid pc same (home d w' sent writer) writer
          rw [put_net, send_net, Net.write_store_other_key _ _ _ _ apart]
          exact sound.sent d w' sent writer
  | deliver t o key v front =>
      refine ⟨shape, Net.replay_wellFormed sound.wf front, sound.origin, sound.mark, ?_, ?_⟩
      · intro d key' v' owns writer
        exact (sound.tracks d key' v' owns writer).replay sound.wf front
      · intro d w sent writer
        have tracks := sound.tracks d _ _ (home d w sent writer) writer
        have quiet := tracks.not_inFlight_self sound.wf
        exact (Net.replay_store_of_not_inFlight front quiet).trans (sound.sent d w sent writer)

/-- With every other server counted, each has replayed the SETs of the client. -/
theorem mark_le_seen_of_caughtUp {s : State k N} {c : Fin k} {server t : Fin N}
    (all : N ≤ s.caughtUp c server + 1) (other : t ≠ server) :
    s.mark c ≤ s.net.seen t server := by
  by_contra behind
  let counted := (List.finRange N).filter fun r =>
    r ≠ server ∧ s.mark c ≤ s.net.seen r server
  have nodup : counted.Nodup := (List.nodup_finRange N).filter _
  have inside : counted.toFinset ⊆ (Finset.univ.erase server).erase t := by
    intro r member
    have both : r ≠ server ∧ s.mark c ≤ s.net.seen r server := by
      simpa [counted] using member
    have apart : r ≠ t := by
      rintro rfl
      exact behind both.2
    simp [apart, both.1]
  have size := Finset.card_le_card inside
  rw [List.toFinset_card_of_nodup nodup, Finset.card_erase_of_mem (by simp [other]),
    Finset.card_erase_of_mem (Finset.mem_univ _), Finset.card_univ, Fintype.card_fin] at size
  have two : 2 ≤ N := by
    have := t.isLt
    have := server.isLt
    have := Fin.val_ne_of_ne other
    omega
  change N ≤ counted.length + 1 at all
  omega

namespace Deployment

/-- WAIT cannot return before every other server has replayed the client's SETs. -/
def Covers (D : Deployment k N) : Prop := D.plain + N ≤ D.required + 1

/-- A SET of client `c` is at `t` before its `write_with_wait` returns. -/
def Reaches (D : Deployment k N) (c : Fin k) (t : Fin N) : Prop :=
  t = D.server c ∨ D.Covers

end Deployment

/-- When `write_with_wait` returns, the value is shown wherever the SET reaches. -/
theorem Sound.shows {s : State k N} (sound : Sound D s) {c : Fin k} {w : Write} {acks : ℕ}
    (pc : (s.loc c).pc = .wait w) (enough : D.required ≤ acks)
    (bound : acks ≤ D.plain + s.caughtUp c (D.server c))
    (writer : (w.command (s.loc c).node).1.writer = some (s.loc c).node) {t : Fin N}
    (reaches : D.Reaches c t) :
    s.net.Shows t (w.command (s.loc c).node).1 (w.command (s.loc c).node).2 := by
  have owns : D.Owns c (s.loc c).node := (sound.shape c).owns (by simp [pc, Pc.Active])
  have tracks := sound.tracks c _ _ owns writer
  have quiet : ¬ s.net.InFlight t (w.command (s.loc c).node).1 := by
    by_cases home : t = D.server c
    · rw [home]
      exact tracks.not_inFlight_self sound.wf
    · have covers : D.plain + N ≤ D.required + 1 := reaches.resolve_left home
      have reached : s.mark c ≤ s.net.seen t (D.server c) :=
        mark_le_seen_of_caughtUp (by omega) home
      exact tracks.quiet_of_seen (fun v member => sound.mark c _ v _ member writer owns) reached
  refine ⟨quiet, ?_⟩
  rw [tracks.agree t quiet]
  exact sound.sent c w (Or.inl pc) writer

end DistributedColoring

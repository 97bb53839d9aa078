import DistributedColoring.Bookkeeping

set_option autoImplicit false

/- The order in which the nodes are coloured: a node enters the history with the
first SET of its colour, once. -/
namespace DistributedColoring

variable {k N : ℕ} {D : Deployment k N}

/-- Past the first SET of the colour, within `process_node`. -/
def Pc.Colored : Pc → Prop
  | .set (.color _) again => again = true
  | .set .status _ => True
  | .set (.release _) _ => True
  | .wait (.color _) => True
  | .wait .status => True
  | .wait (.release _) => True
  | _ => False

/-- Within `process_node`, before the first SET of the colour. -/
def Pc.Reading (pc : Pc) : Prop := pc.Active ∧ ¬ pc.Colored

theorem Pc.Colored.active {pc : Pc} (colored : pc.Colored) : pc.Active := by
  constructor <;> rintro rfl <;> exact colored

/-- Client `c` has sent the colour of `v`. -/
def Processed (D : Deployment k N) (c : Fin k) (l : Local) (v : ℕ) : Prop :=
  ∃ j, D.firstNode c ≤ j ∧ (D.client c).keyAt j = some v ∧ (j < l.i ∨ j = l.i ∧ l.pc.Colored)

theorem processed_congr {c : Fin k} {l l' : Local} (index : l'.i = l.i)
    (colored : l'.pc.Colored ↔ l.pc.Colored) (v : ℕ) :
    Processed D c l' v ↔ Processed D c l v := by
  unfold Processed
  rw [index, colored]

theorem Started.processed {c : Fin k} {l l' : Local} (started : Started (D.client c) (l.i + 1) l')
    (colored : l.pc.Colored) (v : ℕ) : Processed D c l' v ↔ Processed D c l v := by
  have index : l'.i = l.i + 1 := by cases started <;> rfl
  have fresh : ¬ l'.pc.Colored := by cases started <;> exact not_false
  unfold Processed
  rw [index]
  constructor
  · rintro ⟨j, low, key, before | ⟨_, done⟩⟩
    · refine ⟨j, low, key, ?_⟩
      rcases lt_or_eq_of_le (Int.lt_add_one_iff.mp before) with less | same
      · exact Or.inl less
      · exact Or.inr ⟨same, colored⟩
    · exact absurd done fresh
  · rintro ⟨j, low, key, before | ⟨same, _⟩⟩
    · exact ⟨j, low, key, Or.inl (by omega)⟩
    · exact ⟨j, low, key, Or.inl (by omega)⟩

theorem Released.processed {c : Fin k} {l l' : Local} (released : Released (D.client c) l l')
    (colored : l.pc.Colored) (v : ℕ) : Processed D c l' v ↔ Processed D c l v := by
  cases released with
  | unlock lock rest split => exact processed_congr (by rfl) (iff_of_true (by trivial) colored) v
  | next l' empty started => exact started.processed colored v

theorem Resumed.processed {c : Fin k} {l l' : Local} (resumed : Resumed (D.client c) l l')
    (reading : ¬ l.pc.Colored) (v : ℕ) : Processed D c l' v ↔ Processed D c l v := by
  cases resumed with
  | choose x empty least =>
      exact processed_congr (by rfl) (iff_of_false (by simp [Pc.Colored]) reading) v
  | inside u rest split range =>
      exact processed_congr (by rfl) (iff_of_false (by simp [Pc.Colored]) reading) v
  | outside u rest split range =>
      exact processed_congr (by rfl) (iff_of_false (by simp [Pc.Colored]) reading) v

theorem Spun.index {l l' : Local} {lock : ClientGraphPetersonLock}
    {otherFlag turnVar : Option (Reply ℤ)} (spun : Spun l lock otherFlag turnVar l') :
    l'.i = l.i ∧ ¬ l'.pc.Colored := by
  cases spun <;> exact ⟨rfl, not_false⟩

/-- Without a SET nothing more is processed. -/
theorem Quiet.processed {s : State k N} {c : Fin k} {move : Move} {l' : Local}
    (quiet : Quiet D s c move l') (v : ℕ) : Processed D c l' v ↔ Processed D c (s.loc c) v := by
  cases quiet with
  | neighbours reply pc members =>
      exact processed_congr (by rfl) (by rw [pc]; rfl) v
  | boundary reply l' pc resumed => exact resumed.processed (by rw [pc]; exact not_false) v
  | mustLock u pc status => exact processed_congr (by rfl) (by rw [pc]; rfl) v
  | skipLock u pc status => exact processed_congr (by rfl) (by rw [pc]; rfl) v
  | color u l' pc resumed =>
      have reading : ¬ (s.loc c).pc.Colored := by
        rw [pc]
        exact not_false
      exact (resumed.processed reading v).trans (processed_congr (by rfl) Iff.rfl v)
  | resend w acks pc =>
      refine processed_congr (by rfl) ?_ v
      rw [pc]
      cases w <;> simp [Pc.Colored]
  | written w acks pc enough bound =>
      cases w with
      | flag lock => exact processed_congr (by rfl) (by rw [pc]; rfl) v
      | turn lock => exact processed_congr (by rfl) (by rw [pc]; rfl) v
      | color x => exact processed_congr (by rfl) (by rw [pc]; rfl) v
      | status => exact (releaseNext_released _ _).processed (by rw [pc]; trivial) v
      | release lock => exact (releaseNext_released _ _).processed (by rw [pc]; trivial) v
  | read lock inLoop r oldFlag oldTurn newFlag newTurn pc answer =>
      obtain ⟨index, reading⟩ := (onLockReads_spun (s.loc c) lock inLoop newFlag newTurn).index
      exact processed_congr index (iff_of_false reading (by rw [pc]; exact not_false)) v

theorem Processed.owns {c : Fin k} {l : Local} {v : ℕ} (processed : Processed D c l v)
    (shape : Shape D c l) : D.Owns c v := by
  obtain ⟨j, low, key, before | ⟨same, colored⟩⟩ := processed
  · refine ⟨j, low, ?_, key⟩
    rcases shape.high with bound | first
    · omega
    · omega
  · refine ⟨j, low, ?_, key⟩
    rw [same]
    exact (shape.node colored.active).2

/-- A node whose colour has not been sent is in no client's past. -/
theorem Sound.not_processed {s : State k N} (sound : Sound D s) (valid : D.Valid) {c : Fin k}
    (reading : (s.loc c).pc.Reading) (d : Fin k) : ¬ Processed D d (s.loc d) (s.loc c).node := by
  intro processed
  have owns := (sound.shape c).owns reading.1
  have client := valid.owner_unique (processed.owns (sound.shape d)) owns
  subst client
  obtain ⟨j, low, key, before | ⟨same, colored⟩⟩ := processed
  · have index := Deployment.keyAt_injective valid.nodup key
      ((sound.shape d).node reading.1).1
    omega
  · exact reading.2 colored

structure Recorded (D : Deployment k N) (s : State k N) : Prop where
  nodup : s.history.Nodup
  mem : ∀ v, v ∈ s.history ↔ ∃ c, Processed D c (s.loc c) v

theorem start_recorded (store : Key → Option ℤ) : Recorded D (D.start store) := by
  refine ⟨List.nodup_nil, fun v => iff_of_false List.not_mem_nil ?_⟩
  intro ⟨c, processed⟩
  have started : ∀ l, Started (D.client c) (D.firstNode c) l → ¬ Processed D c l v := by
    intro l started
    rintro ⟨j, low, key, before | ⟨same, colored⟩⟩
    · have index : l.i = D.firstNode c := by cases started <;> rfl
      omega
    · cases started <;> exact colored
  change Processed D c (D.client c).start v at processed
  unfold Client.start at processed
  split at processed
  · obtain ⟨j, low, key, before | ⟨same, colored⟩⟩ := processed
    · change j < D.firstNode c at before
      omega
    · exact colored
  · exact started _ (processAt_started _ _) processed

/-- A node that is still being read for is not in the history. -/
theorem Recorded.notMem {s : State k N} (recorded : Recorded D s) (sound : Sound D s)
    (valid : D.Valid) {c : Fin k} (reading : (s.loc c).pc.Reading) :
    (s.loc c).node ∉ s.history := by
  rw [recorded.mem]
  intro ⟨d, processed⟩
  exact sound.not_processed valid reading d processed

theorem Recorded.mem_of_colored {s : State k N} (recorded : Recorded D s) (sound : Sound D s)
    {c : Fin k} (colored : (s.loc c).pc.Colored) : (s.loc c).node ∈ s.history := by
  have shape := sound.shape c
  exact (recorded.mem _).mpr
    ⟨c, (s.loc c).i, shape.low, (shape.node colored.active).1, Or.inr ⟨rfl, colored⟩⟩

/-- The first SET of a colour adds its node. -/
theorem processed_of_color {c : Fin k} {l : Local} (shape : Shape D c l) {x : ℤ}
    (pc : l.pc = .set (.color x) false) (v : ℕ) :
    Processed D c { l with pc := .wait (.color x) } v ↔ Processed D c l v ∨ v = l.node := by
  have key := (shape.node (by simp [pc, Pc.Active])).1
  constructor
  · rintro ⟨j, low, found, before | ⟨same, _⟩⟩
    · exact Or.inl ⟨j, low, found, Or.inl before⟩
    · rw [same] at found
      exact Or.inr (Option.some.inj (found.symm.trans key))
  · rintro (⟨j, low, found, before | ⟨_, colored⟩⟩ | same)
    · exact ⟨j, low, found, Or.inl before⟩
    · rw [pc] at colored
      exact absurd colored Bool.false_ne_true
    · rw [same]
      exact ⟨l.i, shape.low, key, Or.inr ⟨rfl, trivial⟩⟩

theorem Recorded.step {s s' : State k N} {a : Action k N} (recorded : Recorded D s)
    (valid : D.Valid) (sound : Sound D s) (taken : StepCase D s a s') : Recorded D s' := by
  have keep : ∀ (c : Fin k) (l' : Local) (t : State k N), t.history = s.history →
      t.loc = Function.update s.loc c l' →
      (∀ v, Processed D c l' v ↔ Processed D c (s.loc c) v) → Recorded D t := by
    rintro c l' t history loc same
    refine ⟨history ▸ recorded.nodup, fun v => ?_⟩
    rw [history, recorded.mem v, loc]
    apply exists_congr
    intro d
    by_cases client : d = c
    · subst client
      rw [Function.update_self]
      exact (same v).symm
    · rw [Function.update_of_ne client]
  cases taken with
  | quiet c move l' quiet => exact keep c l' _ rfl rfl quiet.processed
  | send c w again pc =>
      have unchanged : ∀ w again, (∀ v, Processed D c { s.loc c with pc := .wait w } v ↔
          Processed D c (s.loc c) v) → (s.send c (D.server c) w again).history = s.history →
          Recorded D ((s.send c (D.server c) w again).put c { s.loc c with pc := .wait w }) :=
        fun w again same history => keep c _ _ history rfl same
      cases w with
      | flag lock =>
          exact unchanged _ again (processed_congr (by rfl) (by rw [pc]; rfl)) rfl
      | turn lock =>
          exact unchanged _ again (processed_congr (by rfl) (by rw [pc]; rfl)) rfl
      | status =>
          exact unchanged _ again (processed_congr (by rfl) (by rw [pc]; rfl)) rfl
      | release lock =>
          exact unchanged _ again (processed_congr (by rfl) (by rw [pc]; rfl)) rfl
      | color x =>
          cases again with
          | true =>
              exact unchanged _ true (processed_congr (by rfl) (by rw [pc]; simp [Pc.Colored])) rfl
          | false =>
              have fresh := recorded.notMem sound valid (c := c)
                (by simp [pc, Pc.Reading, Pc.Active, Pc.Colored])
              refine ⟨List.Nodup.append recorded.nodup (List.nodup_singleton _)
                (by simpa using fresh), fun v => ?_⟩
              change v ∈ s.history ++ [(s.loc c).node] ↔ _
              rw [List.mem_append, List.mem_singleton, recorded.mem v]
              constructor
              · rintro (⟨d, processed⟩ | same)
                · refine ⟨d, ?_⟩
                  by_cases client : d = c
                  · subst client
                    rw [put_loc_self]
                    exact (processed_of_color (sound.shape d) pc v).mpr (Or.inl processed)
                  · rw [put_loc_other _ _ client]
                    exact processed
                · refine ⟨c, ?_⟩
                  rw [put_loc_self]
                  exact (processed_of_color (sound.shape c) pc v).mpr (Or.inr same)
              · rintro ⟨d, processed⟩
                by_cases client : d = c
                · subst client
                  rw [put_loc_self] at processed
                  exact ((processed_of_color (sound.shape d) pc v).mp processed).imp_left
                    fun old => ⟨d, old⟩
                · rw [put_loc_other _ _ client] at processed
                  exact Or.inl ⟨d, processed⟩
  | deliver t o key v front => exact ⟨recorded.nodup, recorded.mem⟩

end DistributedColoring

import DistributedColoring.AddGraph

set_option autoImplicit false

/- Where `add_graph` can go wrong: lines that end the process, what refused lines leave
behind, and changes that `dirty` does not count. Files and databases are arbitrary here. -/
namespace DistributedColoring

open CText

instance (db : Db) (key : Text) : Decidable (SetOrFree db key) :=
  match found : db key with
  | none => isTrue fun obj same => by rw [found] at same; cases same
  | some (.set stored) => isTrue fun obj same => by
      rw [found] at same
      exact ⟨stored, (Option.some.inj same).symm⟩
  | some (.string value) => isFalse fun free => by
      obtain ⟨stored, same⟩ := free _ found
      cases same
  | some .other => isFalse fun free => by
      obtain ⟨stored, same⟩ := free _ found
      cases same

/-- An end of the edge has a value of another type for its neighbours. -/
def Refused (db : Db) (edge : ℤ × ℤ) : Prop :=
  ¬ (SetOrFree db (nodeKey edge.1) ∧ SetOrFree db (nodeKey edge.2))

instance (db : Db) (edge : ℤ × ℤ) : Decidable (Refused db edge) :=
  inferInstanceAs (Decidable (¬ _))

/-- A node has a neighbours key after the lines `before`. The first end of a line has
one from then on; the second too unless the first is refused. -/
def Held (db : Db) (before : List (ℤ × ℤ)) (v : ℤ) : Prop :=
  db (nodeKey v) ≠ none ∨
    ∃ edge ∈ before, edge.1 = v ∨ edge.2 = v ∧ SetOrFree db (nodeKey edge.1)

/-- What the lines `edges` do to the types of the neighbours keys and to the replies. -/
structure Effect (edges : List (ℤ × ℤ)) (s s' : Loading) : Prop where
  typed : ∀ v, InInt v → (SetOrFree s'.db (nodeKey v) ↔ SetOrFree s.db (nodeKey v))
  held : ∀ v, InInt v → (s'.db (nodeKey v) ≠ none ↔ Held s.db edges v)
  replies : s'.replies = s.replies ++
    List.replicate (edges.countP fun edge => decide (Refused s.db edge)) (.error wrongTypeError)

theorem held_singleton {db : Db} {a b v : ℤ} : Held db [(a, b)] v ↔
    db (nodeKey v) ≠ none ∨ a = v ∨ b = v ∧ SetOrFree db (nodeKey a) := by
  simp [Held]

namespace Effect

variable {xs ys : List (ℤ × ℤ)} {s s₁ s' : Loading}

theorem refused_iff (effect : Effect xs s s₁) {edge : ℤ × ℤ} (range : IntEdge edge) :
    Refused s₁.db edge ↔ Refused s.db edge := by
  unfold Refused
  rw [effect.typed _ range.1, effect.typed _ range.2]

theorem append (range : ∀ e ∈ ys, IntEdge e) (first : Effect xs s s₁)
    (second : Effect ys s₁ s') : Effect (xs ++ ys) s s' := by
  refine ⟨?_, ?_, ?_⟩
  · intro v inInt
    rw [second.typed v inInt, first.typed v inInt]
  · intro v inInt
    have same : ∀ e ∈ ys, (SetOrFree s₁.db (nodeKey e.1) ↔ SetOrFree s.db (nodeKey e.1)) :=
      fun e member => first.typed _ (range e member).1
    rw [second.held v inInt, Held, first.held v inInt, Held, Held, or_assoc]
    refine or_congr_right ?_
    simp only [List.mem_append, or_and_right, exists_or]
    refine or_congr_right (exists_congr fun e => and_congr_right fun member => ?_)
    rw [same e member]
  · rw [second.replies, first.replies, List.append_assoc, List.replicate_append_replicate,
      List.countP_append]
    congr 3
    apply List.countP_congr
    intro e member
    simp only [decide_eq_true_eq]
    exact first.refused_iff (range e member)

end Effect

namespace Loading

variable {s s' : Loading} {a b : ℤ}

theorem ensureSet_of_wrong {db : Db} {key : Text} (wrong : ¬ SetOrFree db key) :
    s.ensureSet key (db key) = some (s.addReply (.error wrongTypeError), false) := by
  unfold SetOrFree at wrong
  cases found : db key with
  | none => simp [found] at wrong
  | some obj =>
      cases obj with
      | set stored => simp [found] at wrong
      | string value => rfl
      | other => rfl

theorem present_of_wrong {db : Db} {key : Text} (wrong : ¬ SetOrFree db key) : db key ≠ none := by
  intro absent
  apply wrong
  intro obj found
  rw [absent] at found
  cases found

theorem addEdge_of_wrong_first (wrong : ¬ SetOrFree s.db (nodeKey a)) :
    s.addEdge a b = some (s.addReply (.error wrongTypeError)) := by
  simp only [addEdge, ensureSet_of_wrong wrong]

/-- The first set is there before the second is refused. -/
theorem addEdge_of_wrong_second (free : SetOrFree s.db (nodeKey a))
    (wrong : ¬ SetOrFree s.db (nodeKey b)) :
    s.addEdge a b = some ((s.withSet (nodeKey a)).addReply (.error wrongTypeError)) := by
  simp only [addEdge, ensureSet_of_set _ free, ensureSet_of_wrong wrong]

/-- Both ends of a loop were looked up before its set was made. -/
theorem addEdge_of_free_loop (absent : s.db (nodeKey a) = none) : s.addEdge a a = none := by
  simp [addEdge, ensureSet, dbAdd, absent]

theorem addEdge_eq_none_iff (range : IntEdge (a, b)) :
    s.addEdge a b = none ↔ a = b ∧ s.db (nodeKey a) = none := by
  constructor
  · intro aborted
    by_cases freeA : SetOrFree s.db (nodeKey a)
    · by_cases freeB : SetOrFree s.db (nodeKey b)
      · by_cases loop : a = b
        · refine ⟨loop, ?_⟩
          subst loop
          cases found : s.db (nodeKey a) with
          | none => rfl
          | some obj =>
              obtain ⟨stored, rfl⟩ := freeA obj found
              simp [addEdge, found, ensureSet] at aborted
        · obtain ⟨s₁, added, _⟩ := loads_of_distinct (a := a) (b := b) ⟨range, loop⟩ freeA freeB
          rw [added] at aborted
          cases aborted
      · rw [addEdge_of_wrong_second freeA freeB] at aborted
        cases aborted
    · rw [addEdge_of_wrong_first freeA] at aborted
      cases aborted
  · rintro ⟨loop, absent⟩
    subst loop
    exact addEdge_of_free_loop absent

theorem effect_of_wrong_first (wrong : ¬ SetOrFree s.db (nodeKey a)) :
    Effect [(a, b)] s (s.addReply (.error wrongTypeError)) := by
  refine ⟨fun v inInt => Iff.rfl, fun v inInt => ?_, ?_⟩
  · rw [held_singleton]
    refine ⟨Or.inl, fun before => ?_⟩
    rcases before with present | same | ⟨_, free⟩
    · exact present
    · subst same
      exact present_of_wrong wrong
    · exact absurd free wrong
  · simp [addReply, Refused, wrong]

theorem effect_of_wrong_second (range : IntEdge (a, b)) (free : SetOrFree s.db (nodeKey a))
    (wrong : ¬ SetOrFree s.db (nodeKey b)) :
    Effect [(a, b)] s ((s.withSet (nodeKey a)).addReply (.error wrongTypeError)) := by
  have other : ∀ {v : ℤ}, InInt v → v ≠ a → (s.withSet (nodeKey a)).db (nodeKey v) =
      s.db (nodeKey v) := fun inInt apart =>
    Function.update_of_ne (fun same => apart (nodeKey_injective inInt range.1 same)) _ _
  have here : (s.withSet (nodeKey a)).db (nodeKey a) = some (.set (members s.db (nodeKey a))) :=
    Function.update_self _ _ _
  refine ⟨fun v inInt => ?_, fun v inInt => ?_, ?_⟩
  · unfold SetOrFree
    by_cases first : v = a
    · subst first
      refine iff_of_true (fun obj found => ?_) free
      rw [addReply, here] at found
      exact ⟨_, (Option.some.inj found).symm⟩
    · rw [addReply, other inInt first]
  · rw [held_singleton, addReply]
    by_cases first : v = a
    · subst first
      simp [here]
    · rw [other inInt first]
      refine ⟨Or.inl, fun before => ?_⟩
      rcases before with present | same | ⟨same, _⟩
      · exact present
      · exact absurd same.symm first
      · subst same
        exact present_of_wrong wrong
  · simp [addReply, withSet, Refused, wrong]

theorem effect_of_loads (range : IntEdge (a, b)) (freeA : SetOrFree s.db (nodeKey a))
    (freeB : SetOrFree s.db (nodeKey b)) (loads : Loads [(a, b)] s.db s'.db)
    (quiet : s'.replies = s.replies) : Effect [(a, b)] s s' := by
  have only : ∀ e ∈ [(a, b)], IntEdge e := by simpa using range
  have free : ∀ v, Mentioned [(a, b)] v → SetOrFree s.db (nodeKey v) := by
    intro v mentioned
    rcases mentioned_singleton.mp mentioned with rfl | rfl
    · exact freeA
    · exact freeB
  refine ⟨fun v inInt => ?_, fun v inInt => ?_, ?_⟩
  · by_cases mentioned : Mentioned [(a, b)] v
    · exact iff_of_true (loads.setOrFree only inInt (free v mentioned)) (free v mentioned)
    · unfold SetOrFree
      rw [loads.nodeKey_other only inInt mentioned]
  · rw [held_singleton]
    by_cases mentioned : Mentioned [(a, b)] v
    · obtain ⟨stored, found, _⟩ := loads.neighbours v mentioned
      refine iff_of_true (by simp [found]) (Or.inr ?_)
      rcases mentioned_singleton.mp mentioned with rfl | rfl
      · exact Or.inl rfl
      · exact Or.inr ⟨rfl, freeA⟩
    · rw [loads.nodeKey_other only inInt mentioned]
      rw [mentioned_singleton, not_or] at mentioned
      have apart : a ≠ v ∧ b ≠ v := ⟨Ne.symm mentioned.1, Ne.symm mentioned.2⟩
      simp [apart]
  · rw [quiet]
    simp [Refused, freeA, freeB]

theorem effect_of_addEdge (range : IntEdge (a, b)) (done : s.addEdge a b = some s') :
    Effect [(a, b)] s s' := by
  by_cases freeA : SetOrFree s.db (nodeKey a)
  · by_cases freeB : SetOrFree s.db (nodeKey b)
    · obtain ⟨loads, quiet⟩ := loads_of_addEdge range freeA freeB done
      exact effect_of_loads range freeA freeB loads quiet
    · rw [addEdge_of_wrong_second freeA freeB] at done
      cases done
      exact effect_of_wrong_second range freeA freeB
  · rw [addEdge_of_wrong_first freeA] at done
    cases done
    exact effect_of_wrong_first freeA

theorem effect_of_addEdges (edges : List (ℤ × ℤ)) {s s' : Loading}
    (range : ∀ e ∈ edges, IntEdge e) (done : s.addEdges edges = some s') :
    Effect edges s s' := by
  induction edges generalizing s with
  | nil =>
      cases done
      exact ⟨fun _ _ => Iff.rfl, fun v _ => by simp [Held], by simp⟩
  | cons edge edges ih =>
      rw [addEdges_cons] at done
      obtain ⟨s₁, added, more⟩ := Option.bind_eq_some_iff.mp done
      have later : ∀ e ∈ edges, IntEdge e := fun e member => range e (List.mem_cons_of_mem _ member)
      exact (effect_of_addEdge (range edge List.mem_cons_self) added).append later (ih later more)

end Loading

/-- Every loop among the lines comes when its node has a neighbours key. -/
def LoopsHeld (db : Db) (edges : List (ℤ × ℤ)) : Prop :=
  ∀ before v, before ++ [(v, v)] <+: edges → Held db before v

theorem loopsHeld_concat {db : Db} {edges : List (ℤ × ℤ)} {a b : ℤ} :
    LoopsHeld db (edges ++ [(a, b)]) ↔ LoopsHeld db edges ∧ (a = b → Held db edges a) := by
  simp only [LoopsHeld, List.prefix_concat_iff]
  constructor
  · intro all
    refine ⟨fun before v early => all before v (Or.inr early), fun loop => ?_⟩
    subst loop
    exact all edges a (Or.inl rfl)
  · rintro ⟨early, last⟩ before v position
    rcases position with whole | earlier
    · obtain ⟨same, loop⟩ := List.append_inj' whole rfl
      cases loop
      subst same
      exact last rfl
    · exact early before v earlier

theorem loopsHeld_of_distinct {db : Db} {edges : List (ℤ × ℤ)} (noLoop : ∀ e ∈ edges, e.1 ≠ e.2) :
    LoopsHeld db edges := by
  intro before v position
  have member : (v, v) ∈ edges := position.subset (by simp)
  exact absurd rfl (noLoop _ member)

theorem Loading.addEdges_isSome_iff {s : Loading} (edges : List (ℤ × ℤ))
    (range : ∀ e ∈ edges, IntEdge e) : (s.addEdges edges).isSome ↔ LoopsHeld s.db edges := by
  induction edges using List.reverseRecOn with
  | nil => simp [addEdges, LoopsHeld]
  | append_singleton edges edge ih =>
      obtain ⟨a, b⟩ := edge
      have early : ∀ e ∈ edges, IntEdge e := fun e member => range e (List.mem_append_left _ member)
      have here : IntEdge (a, b) := range _ (by simp)
      rw [addEdges_append, loopsHeld_concat, ← ih early]
      cases done : s.addEdges edges with
      | none => simp
      | some s₁ =>
          have effect := effect_of_addEdges edges early done
          -- the last line ends the process exactly when it is a loop without a key
          have last := addEdge_eq_none_iff (s := s₁) here
          rw [← effect.held a here.1]
          rw [Option.bind_some, addEdges_cons]
          cases added : s₁.addEdge a b with
          | none =>
              obtain ⟨loop, absent⟩ := last.mp added
              simp [loop, ← absent]
          | some s₂ =>
              have goes : ¬ (a = b ∧ s₁.db (nodeKey a) = none) := by simp [← last, added]
              simpa [addEdges] using goes

/-- The command gets to its last reply exactly when the name of the file is found and no loop
finds its key free. -/
theorem add_graph_finishes_iff (copy : Copy) (files : Text → Option Text) (argv : List StringObj)
    (s : Loading) :
    (∃ (s₁ : Loading) (reply : AddGraphReply),
      s.addGraphCommand copy files argv = some (s₁.addReply reply)) ↔
      NameFound copy argv ∧ LoopsHeld s.db (edgesRead files argv) := by
  obtain ⟨reply, command⟩ := Loading.addGraphCommand_eq copy files argv s
  rw [command, ← Loading.addEdges_isSome_iff _ intEdge_of_read]
  by_cases found : NameFound copy argv
  · simp only [if_pos found, found, true_and]
    cases s.addEdges (edgesRead files argv) with
    | none => simp
    | some s₁ => exact iff_of_true ⟨s₁, reply, rfl⟩ rfl
  · simp [found]

theorem addGraphCommand_loop_line (copy : Copy) :
    (Loading.mk (fun _ => none) [] 0).addGraphCommand copy (fun _ => some "0,0\n".toList)
      longNameArgs = none := by
  obtain ⟨reply, command⟩ := Loading.addGraphCommand_eq copy (fun _ => some "0,0\n".toList)
    longNameArgs ⟨fun _ => none, [], 0⟩
  have edges : edgesRead (fun _ => some "0,0\n".toList) longNameArgs = [(0, 0)] := by decide
  rw [command, edges, Loading.addEdges_cons, Loading.addEdge_of_free_loop rfl]
  exact ite_self none

/-- Both copies find the name and end at the line of a loop. -/
theorem loop_line_aborts :
    (Loading.mk (fun _ => none) [] 0).addGraphCommand .keydb (fun _ => some "0,0\n".toList)
        longNameArgs = none ∧
      (Loading.mk (fun _ => none) [] 0).addGraphCommand .redis (fun _ => some "0,0\n".toList)
        longNameArgs = none ∧
      NameFound .keydb longNameArgs :=
  ⟨addGraphCommand_loop_line .keydb, addGraphCommand_loop_line .redis, by decide⟩

/-- A line that reports the wrong type leaves the keys as they were. -/
def RefusalsClean (s : Loading) (lines : List Text) : Prop :=
  ∀ before line s₁ s₂, before ++ [line] <+: lines → before.foldlM Loading.addLine s = some s₁ →
    s₁.addLine line = some s₂ → s₂.replies = s₁.replies ++ [.error wrongTypeError] →
    s₂.db = s₁.db

/-- A line whose second end alone has the wrong type comes when the first has a key. -/
def FirstsHeld (db : Db) (edges : List (ℤ × ℤ)) : Prop :=
  ∀ before a b, before ++ [(a, b)] <+: edges → SetOrFree db (nodeKey a) →
    ¬ SetOrFree db (nodeKey b) → Held db before a

/-- The edge lines before an edge line are the edge lines of the lines before it. -/
theorem exists_line_of_edge {lines : List Text} {before : List (ℤ × ℤ)} {edge : ℤ × ℤ}
    (position : before ++ [edge] <+: lines.filterMap lineEdge) :
    ∃ front line, front ++ [line] <+: lines ∧ front.filterMap lineEdge = before ∧
      lineEdge line = some edge := by
  obtain ⟨rest, whole⟩ := position
  rw [List.append_assoc, eq_comm, List.filterMap_eq_append_iff] at whole
  obtain ⟨front, tail, split, same, last⟩ := whole
  obtain ⟨skipped, line, after, tailSplit, none, read, _⟩ := List.filterMap_eq_cons_iff.mp last
  refine ⟨front ++ skipped, line, ⟨after, ?_⟩, ?_, read⟩
  · rw [split, tailSplit]
    simp
  · rw [List.filterMap_append, same, List.filterMap_eq_nil_iff.mpr none, List.append_nil]

namespace Loading

variable {s s₁ : Loading} {a b : ℤ}

/-- Making the set changes the keys exactly when there was none. -/
theorem withSet_db_eq_iff {key : Text} (free : SetOrFree s.db key) :
    (s.withSet key).db = s.db ↔ s.db key ≠ none := by
  constructor
  · intro same absent
    have here := congrFun same key
    simp [withSet, absent] at here
  · intro present
    obtain ⟨obj, found⟩ := Option.ne_none_iff_exists'.mp present
    obtain ⟨stored, rfl⟩ := free obj found
    rw [withSet, members, found]
    exact found ▸ Function.update_eq_self key s.db

theorem firstsHeld_of_clean {lines : List Text}
    (noLoop : ∀ e ∈ lines.filterMap lineEdge, e.1 ≠ e.2) (clean : RefusalsClean s lines) :
    FirstsHeld s.db (lines.filterMap lineEdge) := by
  intro before a b position freeA wrongB
  have earlier : ∀ e ∈ before, e ∈ lines.filterMap lineEdge := fun e member =>
    position.subset (List.mem_append_left _ member)
  have range : ∀ e ∈ before, IntEdge e := fun e member => intEdge_of_lines e (earlier e member)
  have here : IntEdge (a, b) := intEdge_of_lines _ (position.subset (by simp))
  obtain ⟨front, line, linePosition, same, read⟩ := exists_line_of_edge position
  obtain ⟨s₁, done⟩ := Option.isSome_iff_exists.mp ((addEdges_isSome_iff (s := s) before range).mpr
    (loopsHeld_of_distinct fun e member => noLoop e (earlier e member)))
  have effect := effect_of_addEdges before range done
  have freeNow := (effect.typed a here.1).mpr freeA
  have refused := addEdge_of_wrong_second freeNow (mt (effect.typed b here.2).mp wrongB)
  have kept := clean front line s₁ _ linePosition (by rw [addLines_eq, same, done])
    (by rw [addLine_eq, read]; exact refused) rfl
  exact (effect.held a here.1).mp ((withSet_db_eq_iff freeNow).mp kept)

theorem clean_of_firstsHeld {lines : List Text}
    (held : FirstsHeld s.db (lines.filterMap lineEdge)) : RefusalsClean s lines := by
  intro front line s₁ s₂ position done added refused
  rw [addLines_eq] at done
  have edges := position.filterMap lineEdge
  rw [List.filterMap_append] at edges
  rw [addLine_eq] at added
  cases read : lineEdge line with
  | none =>
      rw [read] at added
      cases added
      simp at refused
  | some edge =>
      obtain ⟨a, b⟩ := edge
      rw [List.filterMap_cons_some read, List.filterMap_nil] at edges
      rw [read] at added
      change s₁.addEdge a b = some s₂ at added
      have here : IntEdge (a, b) := intEdge_of_lineEdge read
      have effect := effect_of_addEdges _ intEdge_of_lines done
      by_cases freeA : SetOrFree s₁.db (nodeKey a)
      · by_cases freeB : SetOrFree s₁.db (nodeKey b)
        · have quiet := (loads_of_addEdge here freeA freeB added).2
          simp [quiet] at refused
        · rw [addEdge_of_wrong_second freeA freeB] at added
          cases added
          apply (withSet_db_eq_iff freeA).mpr
          apply (effect.held a here.1).mpr
          exact held _ a b edges ((effect.typed a here.1).mp freeA)
            (mt (effect.typed b here.2).mpr freeB)
      · rw [addEdge_of_wrong_first freeA] at added
        cases added
        rfl

theorem refusalsClean_iff (lines : List Text)
    (noLoop : ∀ e ∈ lines.filterMap lineEdge, e.1 ≠ e.2) :
    RefusalsClean s lines ↔ FirstsHeld s.db (lines.filterMap lineEdge) :=
  ⟨firstsHeld_of_clean noLoop, clean_of_firstsHeld⟩

end Loading

/-- There is one reply, and refused lines leave nothing behind, exactly when the name is found
and no line is refused at all. Refused lines leave nothing behind exactly when no set is made
for the first end of one. -/
theorem add_graph_error_path (copy : Copy) (files : Text → Option Text) (argv : List StringObj)
    (s : Loading) (noLoop : ∀ e ∈ edgesRead files argv, e.1 ≠ e.2) :
    ((∃ s', s.addGraphCommand copy files argv = some s' ∧
        (∃ reply, s'.replies = s.replies ++ [reply]) ∧
        RefusalsClean s (linesRead files argv)) ↔
      NameFound copy argv ∧ ∀ e ∈ edgesRead files argv, ¬ Refused s.db e) ∧
    (RefusalsClean s (linesRead files argv) ↔ FirstsHeld s.db (edgesRead files argv)) := by
  have clean := Loading.refusalsClean_iff (s := s) _ noLoop
  refine ⟨⟨?_, ?_⟩, clean⟩
  · rintro ⟨s', done, ⟨last, once⟩, _⟩
    obtain ⟨found, s₁, reply, added, rfl⟩ := Loading.addEdges_of_command copy files done
    refine ⟨found, fun e member refused => ?_⟩
    have effect := Loading.effect_of_addEdges _ intEdge_of_read added
    rw [Loading.addReply, effect.replies, List.append_assoc, List.append_cancel_left_eq] at once
    have short := congrArg List.length once
    simp only [List.length_append, List.length_replicate, List.length_singleton] at short
    have none : (edgesRead files argv).countP (fun e => decide (Refused s.db e)) = 0 := by omega
    exact List.countP_eq_zero.mp none e member (decide_eq_true refused)
  · rintro ⟨found, accepted⟩
    obtain ⟨reply, command⟩ := Loading.addGraphCommand_eq copy files argv s
    obtain ⟨s₁, done⟩ := Option.isSome_iff_exists.mp
      ((Loading.addEdges_isSome_iff (s := s) _ intEdge_of_read).mpr (loopsHeld_of_distinct noLoop))
    have effect := Loading.effect_of_addEdges _ intEdge_of_read done
    refine ⟨s₁.addReply reply, by rw [command, if_pos found, done]; rfl, ⟨reply, ?_⟩,
      clean.mpr ?_⟩
    · have none : (edgesRead files argv).countP (fun e => decide (Refused s.db e)) = 0 :=
        List.countP_eq_zero.mpr fun e member => by simpa using accepted e member
      rw [Loading.addReply, effect.replies, none]
      simp
    · intro before a b position _ wrong
      exact absurd (fun free => wrong free.2) (accepted (a, b) (position.subset (by simp)))

theorem add_graph_error_path_empty : ∃ s', (Loading.mk (fun _ => none) [] 0).addGraphCommand .keydb
      (fun _ => some "0,1\n".toList) longNameArgs = some s' ∧
    ∃ reply, s'.replies = [reply] := by
  have edges : edgesRead (fun _ => some "0,1\n".toList) longNameArgs = [(0, 1)] := by decide
  obtain ⟨s', done, once, _⟩ := (add_graph_error_path .keydb (fun _ => some "0,1\n".toList)
    longNameArgs ⟨fun _ => none, [], 0⟩ (by rw [edges]; simp)).1.mpr
    ⟨by decide, by rw [edges]; simp [Refused, SetOrFree]⟩
  exact ⟨s', done, once⟩

/-- Two replies, and an empty set where there was no key. -/
theorem refused_line_leaves_set : ∃ s', (Loading.mk (fun key => if key = nodeKey 1 then
      some (.string ['x']) else none) [] 0).addGraphCommand .keydb
      (fun _ => some "0,1\n".toList) longNameArgs = some s' ∧
    s'.replies = [.error wrongTypeError, .ok] ∧ s'.db (nodeKey 0) = some (.set ∅) := by
  refine ⟨_, rfl, by decide, by decide⟩

/-- Each end of the edge is in the set of the other. -/
def StoredEdge (db : Db) (edge : ℤ × ℤ) : Prop :=
  decimal edge.2 ∈ members db (nodeKey edge.1) ∧ decimal edge.1 ∈ members db (nodeKey edge.2)

/-- A line for a stored edge adds to no set. -/
theorem Loads.storedEdge_iff {db db' : Db} {edge edge' : ℤ × ℤ} (loads : Loads [edge] db db')
    (range : IntEdge edge) (range' : IntEdge edge') (stored : StoredEdge db edge) :
    StoredEdge db' edge' ↔ StoredEdge db edge' := by
  have only : ∀ e ∈ [edge], IntEdge e := by simpa using range
  have same : ∀ v text, InInt v →
      (text ∈ members db' (nodeKey v) ↔ text ∈ members db (nodeKey v)) := by
    intro v text inInt
    rw [loads.mem_members only inInt, or_iff_left_iff_imp]
    rintro ⟨u, joined, new⟩
    subst new
    rcases joined_singleton.mp joined with ⟨rfl, rfl⟩ | ⟨rfl, rfl⟩
    · exact stored.2
    · exact stored.1
  unfold StoredEdge
  rw [same _ _ range'.1, same _ _ range'.2]

/-- Where every edge is stored and every colour is reset, there is nothing to do. -/
theorem loads_self {edges : List (ℤ × ℤ)} {db : Db} (stored : ∀ e ∈ edges, StoredEdge db e)
    (reset : ∀ v, Mentioned edges v → db (colorKey v) = some (.string ['0'])) :
    Loads edges db db := by
  have inSet : ∀ u v, Joined edges u v → decimal u ∈ members db (nodeKey v) := by
    intro u v joined
    rcases joined with edge | edge
    · exact (stored _ edge).2
    · exact (stored _ edge).1
  refine ⟨?_, reset, fun _ _ => rfl⟩
  intro v ⟨u, joined⟩
  have member := inSet u v joined
  unfold members at member
  split at member
  · rename_i stored found
    have same : members db (nodeKey v) = stored := by rw [members, found]
    refine ⟨stored, found, fun text => ?_⟩
    rw [same]
    refine (or_iff_left_of_imp ?_).symm
    rintro ⟨w, joined, new⟩
    rw [new, ← same]
    exact inSet w v joined
  · simp at member

namespace Loading

variable {s s' : Loading} {a b : ℤ}

theorem setTypeAdd_dirty {key : Text} (value : Text) {stored : Finset Text}
    (found : s.db key = some (.set stored)) :
    (s.setTypeAdd key value).dirty = s.dirty + if value ∈ stored then 0 else 1 := by
  simp only [setTypeAdd, found]
  split <;> rfl

/-- `dirty` counts the insertions into the two sets; the colours are not counted. -/
theorem joinEnds_dirty (apart : nodeKey b ≠ nodeKey a) {ofA ofB : Finset Text}
    (foundA : s.db (nodeKey a) = some (.set ofA)) (foundB : s.db (nodeKey b) = some (.set ofB)) :
    (s.joinEnds a b).dirty = s.dirty + (if decimal b ∈ ofA then 0 else 1) +
      if decimal a ∈ ofB then 0 else 1 := by
  have still : (s.setTypeAdd (nodeKey a) (decimal b)).db (nodeKey b) = some (.set ofB) := by
    rw [setTypeAdd_db (decimal b) foundA, Function.update_of_ne apart]
    exact foundB
  rw [← setTypeAdd_dirty (decimal b) foundA, ← setTypeAdd_dirty (decimal a) still]
  rfl

theorem addEdge_dirty (plain : PlainEdge (a, b)) (freeA : SetOrFree s.db (nodeKey a))
    (freeB : SetOrFree s.db (nodeKey b)) (done : s.addEdge a b = some s') :
    StoredEdge s.db (a, b) ∧ s'.dirty = s.dirty ∨
      ¬ StoredEdge s.db (a, b) ∧ s.dirty < s'.dirty := by
  have apart : nodeKey b ≠ nodeKey a := fun same =>
    plain.2 (nodeKey_injective plain.1.2 plain.1.1 same).symm
  rw [addEdge_eq apart freeA freeB] at done
  cases done
  rw [joinEnds_dirty apart (foundA_withSets apart) foundB_withSets]
  simp only [StoredEdge, withSets]
  by_cases inA : decimal b ∈ members s.db (nodeKey a)
  · by_cases inB : decimal a ∈ members s.db (nodeKey b)
    · simp [inA, inB]
    · simp [inA, inB]
  · simp [inA]
    omega

theorem addEdges_dirty (edges : List (ℤ × ℤ)) {s s' : Loading} (plain : ∀ e ∈ edges, PlainEdge e)
    (typed : Typed edges s.db) (done : s.addEdges edges = some s') :
    (∀ e ∈ edges, StoredEdge s.db e) ∧ s'.dirty = s.dirty ∨
      (∃ e ∈ edges, ¬ StoredEdge s.db e) ∧ s.dirty < s'.dirty := by
  induction edges generalizing s with
  | nil =>
      cases done
      exact Or.inl ⟨by simp, rfl⟩
  | cons edge edges ih =>
      obtain ⟨a, b⟩ := edge
      obtain ⟨freeA, freeB, rest⟩ := typed_cons.mp typed
      have here := plain (a, b) List.mem_cons_self
      have later : ∀ e ∈ edges, PlainEdge e :=
        fun e member => plain e (List.mem_cons_of_mem _ member)
      rw [addEdges_cons] at done
      obtain ⟨s₁, added, more⟩ := Option.bind_eq_some_iff.mp done
      have loads := (loads_of_addEdge here.1 freeA freeB added).1
      have tail := ih later (rest.step (fun e member => (later e member).1) here.1 loads) more
      rcases addEdge_dirty here freeA freeB added with ⟨stored, same⟩ | ⟨new, grown⟩
      · -- the sets are as before, so the rest of the lines finds the same edges stored
        have kept : ∀ e ∈ edges, (StoredEdge s₁.db e ↔ StoredEdge s.db e) := fun e member =>
          loads.storedEdge_iff here.1 (later e member).1 stored
        rcases tail with ⟨all, last⟩ | ⟨⟨e, member, new⟩, last⟩
        · refine Or.inl ⟨fun e member => ?_, last.trans same⟩
          rcases List.mem_cons.mp member with rfl | member
          · exact stored
          · exact (kept e member).mp (all e member)
        · exact Or.inr ⟨⟨e, List.mem_cons_of_mem _ member, mt (kept e member).mpr new⟩, by omega⟩
      · refine Or.inr ⟨⟨(a, b), List.mem_cons_self, new⟩, ?_⟩
        rcases tail with ⟨_, last⟩ | ⟨_, last⟩ <;> omega

/-- `call` propagates a command when `dirty` has grown while it ran. -/
def propagated (before after : Loading) : Bool := after.dirty - before.dirty != 0

theorem propagated_iff : propagated s s' = true ↔ s.dirty < s'.dirty := by
  simp only [propagated, bne_iff_ne, ne_eq]
  omega

end Loading

/-- A change is counted, and so propagated, exactly when some edge is new to the sets or
the colours of all nodes of the file are as the command leaves them. -/
theorem add_graph_propagated_iff (copy : Copy) (files : Text → Option Text)
    (argv : List StringObj) (s s' : Loading) (noLoop : ∀ e ∈ edgesRead files argv, e.1 ≠ e.2)
    (typed : Typed (edgesRead files argv) s.db)
    (returned : s.addGraphCommand copy files argv = some s') :
    (s'.db ≠ s.db → s.dirty < s'.dirty ∧ s.propagated s' = true) ↔
      (∃ e ∈ edgesRead files argv, ¬ StoredEdge s.db e) ∨
        ∀ v, Mentioned (edgesRead files argv) v → s.db (colorKey v) = some (.string ['0']) := by
  have plain : ∀ e ∈ edgesRead files argv, PlainEdge e := fun e member =>
    ⟨intEdge_of_read e member, noLoop e member⟩
  obtain ⟨_, s₁, reply, done, rfl⟩ := Loading.addEdges_of_command copy files returned
  have loads := (Loading.loads_of_addEdges _ intEdge_of_read typed done).1
  rw [Loading.propagated_iff, and_self]
  change (s₁.db ≠ s.db → s.dirty < s₁.dirty) ↔ _
  rcases Loading.addEdges_dirty _ plain typed done with ⟨stored, same⟩ | ⟨new, grown⟩
  · constructor
    · intro counted
      refine Or.inr fun v mentioned => ?_
      have unchanged : s₁.db = s.db := by
        by_contra changed
        have := counted changed
        omega
      rw [← unchanged]
      exact loads.color v mentioned
    · intro either changed
      rcases either with ⟨e, member, new⟩ | reset
      · exact absurd (stored e member) new
      · exact absurd (loads.congr (loads_self stored reset) fun _ _ => Iff.rfl) changed
  · exact iff_of_true (fun _ => grown) (Or.inl new)

theorem add_graph_propagated_empty : ∃ s', (Loading.mk (fun _ => none) [] 0).addGraphCommand
      .keydb (fun _ => some "0,1\n".toList) longNameArgs = some s' ∧
    (s'.db ≠ (fun _ => none) → (Loading.mk (fun _ => none) [] 0).propagated s' = true) := by
  have edges : edgesRead (fun _ => some "0,1\n".toList) longNameArgs = [(0, 1)] := by decide
  refine ⟨_, rfl, fun changed => ?_⟩
  refine ((add_graph_propagated_iff .keydb (fun _ => some "0,1\n".toList) longNameArgs
    ⟨fun _ => none, [], 0⟩ _ (by rw [edges]; simp) (fun v _ obj found => by cases found)
    rfl).mpr (Or.inl ?_) changed).2
  rw [edges]
  exact ⟨(0, 1), by simp, by simp [StoredEdge, members]⟩

/-- Two joined nodes after a colouring run. -/
def coloredEdge : Db := fun key =>
  if key = nodeKey 0 then some (.set {decimal 1})
  else if key = nodeKey 1 then some (.set {decimal 0})
  else if key = colorKey 0 then some (.string ['0'])
  else if key = colorKey 1 then some (.string ['1'])
  else none

/-- Reading the file again resets a colour on this server only. -/
theorem reset_color_not_propagated : ∃ s', (Loading.mk coloredEdge [] 0).addGraphCommand .keydb
      (fun _ => some "0,1\n".toList) longNameArgs = some s' ∧
    coloredEdge (colorKey 1) = some (.string ['1']) ∧
    s'.db (colorKey 1) = some (.string ['0']) ∧ s'.dirty = 0 ∧
    (Loading.mk coloredEdge [] 0).propagated s' = false := by
  refine ⟨_, rfl, by decide, by decide, by decide, by decide⟩

end DistributedColoring

import DistributedColoring.AddGraph
import DistributedColoring.FailSafe

set_option autoImplicit false

/- The colour of a node from the replies that carry its neighbours' colours to the text
that is stored: `getMinimalValueNotInArray` with the arithmetic of `int` and checked array
accesses, as `process_node` calls it. -/
namespace DistributedColoring

open CText
open GreedyColoring (IsLeastFree)
open GuardedRun (Run)

instance (value : ℤ) : Decidable (InInt value) := inferInstanceAs (Decidable (_ ∧ _))

/-- The result of an operation on `int`; overflow is undefined. -/
def checked (value : ℤ) : Option ℤ := if InInt value then some value else none

/-- `array[index] = value`; an index outside the array is undefined. -/
def writeAt (array : List ℤ) (index value : ℤ) : Option (List ℤ) :=
  if 0 ≤ index ∧ index < array.length then some (array.set index.toNat value) else none

def readAt (array : List ℤ) (index : ℤ) : Option ℤ :=
  if 0 ≤ index then array[index.toNat]? else none

/-- The marking loop. -/
def markUsedInt (lowerBound upperBound : ℤ) (usedValues arr : List ℤ) : Option (List ℤ) :=
  arr.foldlM (fun used a =>
    if lowerBound ≤ a ∧ a ≤ upperBound then
      (checked (a - lowerBound)).bind fun index => writeAt used index 1
    else some used) usedValues

/-- The search loop from `i` on; inside, `none` for a range without an unused value. -/
def searchUnused (usedValues : List ℤ) (lowerBound upperBound i : ℤ) : Option (Option ℤ) :=
  if i ≤ upperBound then
    match (checked (i - lowerBound)).bind (readAt usedValues) with
    | none => none
    | some used =>
        if used = 0 then some (some i)
        else if InInt (i + 1) then searchUnused usedValues lowerBound upperBound (i + 1)
        else none
  else some none
termination_by (upperBound + 1 - i).toNat

/-- The function in `int`. The copy in 1server/color.c has no test for an empty range
and exits only where `calloc` is given a negative size. -/
def getMinimalValueInt (tested : Bool) : ℕ → List ℤ → ℤ → ℤ → Option ℤ
  | 0, _, _, _ => none
  | calls + 1, arr, lowerBound, upperBound =>
      ((checked (upperBound - lowerBound)).bind fun difference => checked (difference + 1)).bind
      fun range =>
        if range < 0 ∨ (range = 0 ∧ tested) then none
        else
          (markUsedInt lowerBound upperBound (List.replicate range.toNat 0) arr).bind fun used =>
          match searchUnused used lowerBound upperBound lowerBound with
          | none => none
          | some (some i) => some i
          | some none =>
              ((checked (upperBound + arr.length)).bind fun sum => checked (sum + 1)).bind
                fun wider => getMinimalValueInt tested calls arr lowerBound wider

theorem checked_eq {value : ℤ} (range : InInt value) : checked value = some value :=
  if_pos range

theorem markUsedInt_eq {lowerBound upperBound : ℤ} (fits : InInt (upperBound - lowerBound))
    (usedValues arr : List ℤ) (size : (usedValues.length : ℤ) = upperBound - lowerBound + 1) :
    markUsedInt lowerBound upperBound usedValues arr =
      some (markUsed lowerBound upperBound usedValues arr) := by
  induction arr generalizing usedValues with
  | nil => rfl
  | cons a rest ih =>
      rw [markUsedInt, List.foldlM_cons, markUsed, List.foldl_cons]
      by_cases inside : lowerBound ≤ a ∧ a ≤ upperBound
      · have index : InInt (a - lowerBound) := by
          obtain ⟨_, high⟩ := fits
          constructor <;> omega
        have inArray : 0 ≤ a - lowerBound ∧ a - lowerBound < usedValues.length := by omega
        rw [if_pos inside, if_pos inside, checked_eq index, Option.bind_some, writeAt,
          if_pos inArray]
        exact ih _ (by rw [List.length_set]; exact size)
      · rw [if_neg inside, if_neg inside]
        exact ih _ size

/-- The counter leaves the range of `int` only past an array without an unused value. -/
theorem searchUnused_eq {lowerBound upperBound : ℤ} (low : InInt lowerBound)
    (high : InInt upperBound) (fits : InInt (upperBound - lowerBound)) (usedValues : List ℤ)
    (size : (usedValues.length : ℤ) = upperBound - lowerBound + 1) (j : ℕ)
    (inside : j ≤ usedValues.length)
    (stops : InInt (upperBound + 1) ∨
      firstUnused (usedValues.drop j) (lowerBound + j) ≠ none) :
    searchUnused usedValues lowerBound upperBound (lowerBound + j) =
      some (firstUnused (usedValues.drop j) (lowerBound + j)) := by
  unfold InInt at low high fits
  induction left : usedValues.length - j generalizing j with
  | zero =>
      have past : ¬ lowerBound + j ≤ upperBound := by omega
      have done : usedValues.drop j = [] := List.drop_eq_nil_of_le (by omega)
      rw [searchUnused, if_neg past, done]
      rfl
  | succ left ih =>
      have here : lowerBound + j ≤ upperBound := by omega
      have bound : j < usedValues.length := by omega
      have index : InInt (lowerBound + j - lowerBound) := by
        unfold InInt
        omega
      have entry : readAt usedValues (lowerBound + j - lowerBound) = some usedValues[j] := by
        have same : (lowerBound + j - lowerBound).toNat = j := by omega
        rw [readAt, if_pos (by omega), same, List.getElem?_eq_getElem bound]
      rw [List.drop_eq_getElem_cons bound, firstUnused] at stops ⊢
      rw [searchUnused, if_pos here, checked_eq index, Option.bind_some, entry]
      by_cases unused : usedValues[j] = 0
      · simp [unused]
      · simp only [unused, if_false] at stops ⊢
        have next : lowerBound + (j : ℤ) + 1 = lowerBound + ((j + 1 : ℕ) : ℤ) := by omega
        have fitsNext : InInt (lowerBound + j + 1) := by
          by_cases last : lowerBound + (j : ℤ) = upperBound
          · have done : usedValues.drop (j + 1) = [] := List.drop_eq_nil_of_le (by omega)
            rw [done, last] at stops
            rw [last]
            exact stops.resolve_right (by simp [firstUnused])
          · unfold InInt
            omega
        rw [if_pos fitsNext, next]
        rw [next] at stops
        exact ih (j + 1) (by omega) stops (by omega)

section Minimal

variable (tested : Bool) (arr : List ℤ) {lowerBound upperBound : ℤ}

/-- One call in `int` does what the same call on integers does, as long as the range fits
and the search stops in it or can leave it. -/
theorem getMinimalValueInt_pass (calls : ℕ) (bounds : lowerBound ≤ upperBound)
    (low : InInt lowerBound) (high : InInt upperBound)
    (fits : InInt (upperBound - lowerBound + 1))
    (stops : InInt (upperBound + 1) ∨ firstUnused (markUsed lowerBound upperBound
      (List.replicate (upperBound - lowerBound + 1).toNat 0) arr) lowerBound ≠ none) :
    getMinimalValueInt tested (calls + 1) arr lowerBound upperBound =
      match firstUnused (markUsed lowerBound upperBound
        (List.replicate (upperBound - lowerBound + 1).toNat 0) arr) lowerBound with
      | some i => some i
      | none => ((checked (upperBound + arr.length)).bind fun sum => checked (sum + 1)).bind
          fun wider => getMinimalValueInt tested calls arr lowerBound wider := by
  have difference : InInt (upperBound - lowerBound) := by
    unfold InInt at fits ⊢
    omega
  have tests : ¬ (upperBound - lowerBound + 1 < 0 ∨ (upperBound - lowerBound + 1 = 0 ∧ tested)) :=
    by omega
  have size : ((List.replicate (upperBound - lowerBound + 1).toNat (0 : ℤ)).length : ℤ) =
      upperBound - lowerBound + 1 := by
    rw [List.length_replicate]
    omega
  have marked := markUsedInt_eq difference _ arr size
  rw [← markUsed_length lowerBound upperBound _ arr] at size
  have search := searchUnused_eq low high difference _ size 0 (Nat.zero_le _) (by simpa using stops)
  rw [Nat.cast_zero, add_zero, List.drop_zero] at search
  rw [getMinimalValueInt, checked_eq difference, Option.bind_some, checked_eq fits,
    Option.bind_some, if_neg tests, marked, Option.bind_some, search]
  cases firstUnused (markUsed lowerBound upperBound
    (List.replicate (upperBound - lowerBound + 1).toNat 0) arr) lowerBound <;> rfl

theorem getMinimalValueInt_spec (bounds : lowerBound ≤ upperBound) (low : InInt lowerBound)
    (wider : InInt (upperBound + arr.length + 1))
    (fits : InInt (upperBound - lowerBound + arr.length + 2)) :
    ∃ c, getMinimalValueInt tested 2 arr lowerBound upperBound = some c ∧
      IsLeastFree {d | d ∈ arr} lowerBound c ∧ c ≤ lowerBound + arr.length := by
  obtain ⟨c, found, least, bounded⟩ := getMinimalValueNotInArray_spec arr bounds
  refine ⟨c, ?_, least, bounded⟩
  unfold InInt at low wider fits
  rw [getMinimalValueInt_pass tested arr 1 bounds ⟨low.1, low.2⟩ (by unfold InInt; omega)
    (by unfold InInt; omega) (Or.inl (by unfold InInt; omega))]
  rcases scan_spec arr bounds with ⟨d, search, least'⟩ | ⟨search, full⟩
  · rw [search]
    rw [least'.unique least]
  · -- the second range is larger than the array, so the search stops inside it
    have sum : InInt (upperBound + arr.length) := by unfold InInt; omega
    have more : lowerBound ≤ upperBound + arr.length + 1 := by omega
    have second := getMinimalValueInt_pass tested arr 0 more ⟨low.1, low.2⟩ ⟨wider.1, wider.2⟩
      (by unfold InInt; omega)
    rcases scan_spec arr more with ⟨d, search', least'⟩ | ⟨_, full'⟩
    · rw [search, checked_eq sum, Option.bind_some, checked_eq ⟨wider.1, wider.2⟩,
        Option.bind_some, second (Or.inr (by rw [search']; simp)), search']
      rw [least'.unique least]
    · have tooMany := span_le_length arr lowerBound (upperBound + arr.length + 1)
        (fun d from_ less => full' d from_ (by omega))
      omega

end Minimal

/-- `get_node_color` on the text of the reply. -/
def getNodeColorText : Reply Text → ℤ
  | .null => -1
  | .nil => -1
  | .error msg => atoi msg
  | .value text => atoi text

/-- `color_str` of `set_node_color`, a buffer of ten characters. -/
def colorStr (color : ℤ) : Text := snprintf 10 (decimal color)

theorem colorStr_eq {color : ℤ} (positive : 0 ≤ color) (bound : color < 10 ^ 9) :
    colorStr color = decimal color := by
  apply List.take_of_length_le
  have small : color.natAbs < 10 ^ 9 := by omega
  rw [decimal, if_neg (by omega)]
  exact (Nat.length_toDigits_le_iff (by decide) (by decide)).mpr small

theorem atoi_colorStr {color : ℤ} (positive : 0 ≤ color) (bound : color < 10 ^ 9) :
    atoi (colorStr color) = color := by
  have range : InInt color := by
    unfold InInt
    omega
  have read := atoi_decimal range [] (by simp)
  rw [List.append_nil] at read
  rw [colorStr_eq positive bound, read]

/-- The colour for any array of colours, in the range `process_node` starts with. -/
theorem chosen_of_colors (tested : Bool) (colors : List ℤ) (degree : colors.length < 10 ^ 9 - 1) :
    ∃ x, getMinimalValueInt tested 2 colors 0 1000 = some x ∧ IsLeastFree {d | d ∈ colors} 0 x ∧
      x ≤ colors.length ∧ colorStr x = decimal x ∧ atoi (colorStr x) = x := by
  obtain ⟨x, found, least, bounded⟩ := getMinimalValueInt_spec tested colors
    (show (0 : ℤ) ≤ 1000 by decide) (by decide) (by unfold InInt; omega) (by unfold InInt; omega)
  have small : x < 10 ^ 9 := by omega
  exact ⟨x, found, least, by omega, colorStr_eq least.low_le small,
    atoi_colorStr least.low_le small⟩

/-- The colours of a call are the ones it was answered, and its colour SET takes the
least that is not among them. -/
structure Chosen (s : Call) : Prop where
  colors : s.loc.colors =
    (s.trace.filterMap colorRead).map fun read => (read.1, getNodeColor read.2)
  least : ∀ x again, s.loc.pc = .set (.color x) again →
    IsLeastFree {d | d ∈ s.loc.colors.map Prod.snd} 0 x

variable {C : Client} {nbrs : Finset ℕ}

/-- A step that reads no colour and is not the choice. -/
theorem Chosen.keep {s : Call} {l : Local} {a : Answer} (chosen : Chosen s)
    (colors : l.colors = s.loc.colors) (unread : colorRead (s.loc.pc, a) = none)
    (other : ∀ x again, l.pc ≠ .set (.color x) again) :
    Chosen ⟨l, s.trace ++ [(s.loc.pc, a)]⟩ := by
  refine ⟨?_, fun x again pc => absurd pc (other x again)⟩
  rw [List.filterMap_append, List.filterMap_cons_none unread, List.filterMap_nil, List.append_nil]
  exact colors.trans chosen.colors

theorem Resumed.chosen {l l' : Local} {trace : List (Pc × Answer)} (resumed : Resumed C l l')
    (colors : l.colors = (trace.filterMap colorRead).map fun read =>
      (read.1, getNodeColor read.2)) : Chosen ⟨l', trace⟩ := by
  refine ⟨resumed.keeps.1.trans colors, ?_⟩
  intro x again pc
  cases resumed with
  | choose y empty least =>
      cases pc
      exact least
  | inside u rest split range => cases pc
  | outside u rest split range => cases pc

theorem Chosen.step {s s' : Call} {a : Answer} (chosen : Chosen s) (inv : Following nbrs s)
    (outcome : Call.Outcome nbrs s a) (taken : Call.step C s a = some s') : Chosen s' := by
  obtain ⟨l', answered, same⟩ := Option.map_eq_some_iff.mp taken
  subst same
  cases answer_replied answered with
  | listed reply pc => exact chosen.keep rfl (by rw [pc]; rfl) (by simp)
  | unlisted reply pc failed => exact chosen.keep rfl (by rw [pc]; rfl) (by simp)
  | boundary reply l' pc resumed =>
      apply resumed.chosen
      rw [chosen.colors, pc]
      simp [colorRead]
  | mustLock u reply pc => exact chosen.keep rfl (by rw [pc]; rfl) (by simp)
  | skipLock u reply pc => exact chosen.keep rfl (by rw [pc]; rfl) (by simp)
  | color u reply l' pc resumed =>
      apply resumed.chosen
      rw [chosen.colors, pc]
      simp [colorRead]
  | sent w again reply pc => exact chosen.keep rfl (by rw [pc]; rfl) (by simp)
  | unsent w again reply pc =>
      obtain ⟨lock, locking⟩ := inv.locking outcome (Or.inr ⟨again, pc⟩)
      rcases locking with rfl | rfl <;>
        exact chosen.keep rfl (by rw [pc]; rfl) (by simp [Client.written])
  | resend w reply pc =>
      obtain ⟨lock, locking⟩ := inv.locking outcome (Or.inl pc)
      rcases locking with rfl | rfl <;> exact chosen.keep rfl (by rw [pc]; rfl) (by simp)
  | written w reply pc =>
      obtain ⟨lock, locking⟩ := inv.locking outcome (Or.inl pc)
      rcases locking with rfl | rfl <;>
        exact chosen.keep rfl (by rw [pc]; rfl) (by simp [Client.written])
  | spin lock inLoop oldFlag oldTurn newFlag newTurn reply l' pc spun =>
      refine chosen.keep spun.keeps.1 (by rw [pc]; rfl) ?_
      cases spun <;> simp
  | crash pc => exact chosen.keep rfl (by rw [pc]; rfl) (by simp)

theorem Chosen.run {i : ℤ} {node : ℕ} {s : Call}
    (run : Run (Call.step C) (Call.Outcome nbrs) (Call.start i node) s) : Chosen s := by
  induction run with
  | refl => exact ⟨rfl, by simp [Call.start]⟩
  | tail before outcome taken ih =>
      rename_i s s' a
      have alive : s.loc.pc ≠ .crashed := by
        intro crashed
        unfold Call.step Client.answer at taken
        simp [crashed] at taken
      exact ih.step (Following.run before alive) outcome taken

/-- As many colours are read as there are neighbours, or none at all. -/
theorem Following.length_colors {s : Call} (inv : Following nbrs s) {x : ℤ}
    (issued : s.loc.pc = .set (.color x) false) : s.loc.colors.length ≤ nbrs.card := by
  have through := (inv.issued issued).1
  have distinct := inv.distinct
  rw [through] at distinct
  have inside : s.loc.visited.toFinset ⊆ nbrs := by
    intro u member
    rw [List.mem_toFinset, ← through] at member
    exact ((inv.list u).mp member).2
  have cards := Finset.card_le_card inside
  rw [List.toFinset_card_of_nodup distinct] at cards
  simpa [Local.visited] using cards

/-- The chosen colour is the least free one, found with at most one recursive call and
no overflow or index out of range; it is bounded by the degree, and its text reads back
as itself. -/
theorem chosen_color :
    (∀ (tested : Bool) (arr : List ℤ) (lowerBound upperBound : ℤ), lowerBound ≤ upperBound →
      InInt lowerBound → InInt (upperBound + arr.length + 1) →
      InInt (upperBound - lowerBound + arr.length + 2) →
      ∃ c, getMinimalValueInt tested 2 arr lowerBound upperBound = some c ∧
        IsLeastFree {d | d ∈ arr} lowerBound c ∧ c ≤ lowerBound + arr.length) ∧
    (∀ replies : List (Reply Text), replies.length < 10 ^ 9 - 1 →
      ∃ x, getMinimalValueInt true 2 (replies.map getNodeColorText) 0 1000 = some x ∧
        0 ≤ x ∧ x ≤ replies.length ∧ (∀ reply ∈ replies, getNodeColorText reply ≠ x) ∧
        colorStr x = decimal x ∧ getNodeColorText (.value (colorStr x)) = x) ∧
    ∀ (C : Client) (nbrs : Finset ℕ) (i : ℤ) (node : ℕ) (s : Call) (x : ℤ),
      Run (Call.step C) (Call.Outcome nbrs) (Call.start i node) s →
      s.loc.pc = .set (.color x) false → nbrs.card < 10 ^ 9 - 1 →
      getMinimalValueInt true 2 ((s.trace.filterMap colorRead).map fun read =>
        getNodeColor read.2) 0 1000 = some x ∧
      0 ≤ x ∧ x ≤ nbrs.card ∧
      (∀ u reply, (.getNodeColor u, .get reply) ∈ s.trace → getNodeColor reply ≠ x) ∧
      colorStr x = decimal x ∧ atoi (colorStr x) = x := by
  refine ⟨?_, ?_, ?_⟩
  · intro tested arr lowerBound upperBound bounds low wider fits
    exact getMinimalValueInt_spec tested arr bounds low wider fits
  · intro replies degree
    obtain ⟨x, found, least, bounded, text, read⟩ :=
      chosen_of_colors true (replies.map getNodeColorText) (by rwa [List.length_map])
    refine ⟨x, found, least.low_le, by simpa using bounded, ?_, text, read⟩
    intro reply member same
    exact least.free (List.mem_map.mpr ⟨reply, member, same⟩)
  · intro C nbrs i node s x run issued degree
    have inv : Following nbrs s := Following.run run (by simp [issued])
    have chosen := Chosen.run run
    have count := inv.length_colors issued
    have values : s.loc.colors.map Prod.snd =
        (s.trace.filterMap colorRead).map fun read => getNodeColor read.2 := by
      rw [chosen.colors, List.map_map]
      rfl
    have free := chosen.least x false issued
    rw [values] at free
    obtain ⟨y, found, least, bounded, text, read⟩ := chosen_of_colors true
      ((s.trace.filterMap colorRead).map fun read => getNodeColor read.2)
      (by rw [← values, List.length_map]; omega)
    have same := least.unique free
    subst same
    rw [← values, List.length_map] at bounded
    refine ⟨found, free.low_le, by omega, ?_, text, read⟩
    intro u reply member same
    exact free.free (List.mem_map.mpr ⟨(u, reply), mem_colorReads.mpr member, same⟩)

theorem chosen_color_neighbour :
    (∃ c, getMinimalValueInt false 2 [0, 2, 0] 0 0 = some c ∧ c ≤ 3) ∧
    (∃ x, getMinimalValueInt true 2 [0, -1] 0 1000 = some x ∧
      getNodeColorText (.value (colorStr x)) = x) ∧
    ∃ s, Run (Call.step ⟨0, 1, [0, 1], 0⟩) (Call.Outcome {1}) (Call.start 0 0) s ∧
      s.loc.pc = .set (.color 1) false ∧ colorStr 1 = decimal 1 := by
  obtain ⟨array, text, call⟩ := chosen_color
  refine ⟨?_, ?_, ?_⟩
  · obtain ⟨c, found, _, bounded⟩ := array false [0, 2, 0] 0 0 (by decide) (by decide) (by decide)
      (by decide)
    exact ⟨c, found, by simpa using bounded⟩
  · obtain ⟨x, found, _, _, _, _, read⟩ := text [.value ['0'], .nil] (by decide)
    exact ⟨x, found, read⟩
  · have run : Run (Call.step ⟨0, 1, [0, 1], 0⟩) (Call.Outcome {1}) (Call.start 0 0)
        ⟨⟨0, 0, [], [(1, 0)], [], .set (.color 1) false⟩,
          [(.getAllNeighbours, .smembers (.value [1])),
            (.checkBoundaryNode, .smembers (.value [1])), (.getNodeColor 1, .get (.value 0))]⟩ :=
      Run.of_exec [.smembers (.value [1]), .smembers (.value [1]), .get (.value 0)] rfl
    exact ⟨_, run, rfl, (call _ _ _ _ _ _ run rfl (by decide)).2.2.2.2.1⟩

end DistributedColoring

import DistributedColoring.GreedyColoring

set_option autoImplicit false

/- `getMinimalValueNotInArray` of color.c. -/
namespace DistributedColoring

open GreedyColoring (IsLeastFree)

/-- The marking loop: `usedValues[arr[i] - lowerBound] = 1` for entries in range. -/
def markUsed (lowerBound upperBound : ℤ) (usedValues : List ℤ) (arr : List ℤ) : List ℤ :=
  arr.foldl (fun used a =>
    if lowerBound ≤ a ∧ a ≤ upperBound then used.set (a - lowerBound).toNat 1 else used) usedValues

/-- The search loop over `i = lowerBound .. upperBound`, one entry of `usedValues` a turn. -/
def firstUnused : List ℤ → ℤ → Option ℤ
  | [], _ => none
  | used :: rest, i => if used = 0 then some i else firstUnused rest (i + 1)

/-- `none` is `exit(EXIT_FAILURE)` on an empty range, or a recursion deeper than `calls`. -/
def getMinimalValueNotInArray : ℕ → List ℤ → ℤ → ℤ → Option ℤ
  | 0, _, _, _ => none
  | calls + 1, arr, lowerBound, upperBound =>
      let range := upperBound - lowerBound + 1
      if range ≤ 0 then none
      else
        match firstUnused (markUsed lowerBound upperBound (List.replicate range.toNat 0) arr)
            lowerBound with
        | some i => some i
        | none => getMinimalValueNotInArray calls arr lowerBound (upperBound + arr.length + 1)

theorem markUsed_length (lowerBound upperBound : ℤ) (usedValues arr : List ℤ) :
    (markUsed lowerBound upperBound usedValues arr).length = usedValues.length := by
  induction arr generalizing usedValues with
  | nil => rfl
  | cons a rest ih =>
      simp only [markUsed, List.foldl_cons]
      refine (ih _).trans ?_
      split
      · exact List.length_set
      · rfl

theorem markUsed_getElem? (lowerBound upperBound : ℤ) (usedValues arr : List ℤ) (j : ℕ)
    (inside : j < usedValues.length) (reach : lowerBound + j ≤ upperBound) :
    (markUsed lowerBound upperBound usedValues arr)[j]? =
      if lowerBound + j ∈ arr then some 1 else usedValues[j]? := by
  induction arr generalizing usedValues with
  | nil => simp [markUsed]
  | cons a rest ih =>
      simp only [markUsed, List.foldl_cons]
      refine (ih _ (by split <;> simpa using inside)).trans ?_
      by_cases later : lowerBound + j ∈ rest
      · simp [later]
      · by_cases here : lowerBound + (j : ℤ) = a
        · subst here
          have marked : lowerBound ≤ lowerBound + (j : ℤ) := by omega
          simp [later, marked, reach, inside]
        · simp only [later, List.mem_cons, here, or_self, if_false]
          split
          · rename_i marked
            apply List.getElem?_set_ne
            omega
          · rfl

theorem firstUnused_none {used : List ℤ} {i : ℤ} (missing : firstUnused used i = none) :
    ∀ j : ℕ, used[j]? ≠ some 0 := by
  induction used generalizing i with
  | nil => simp
  | cons x rest ih =>
      unfold firstUnused at missing
      split at missing
      · cases missing
      · rename_i taken
        intro j
        cases j with
        | zero => simpa using taken
        | succ j => simpa using ih missing j

theorem firstUnused_some {used : List ℤ} {i c : ℤ} (found : firstUnused used i = some c) :
    ∃ j : ℕ, c = i + j ∧ used[j]? = some 0 ∧ ∀ k < j, used[k]? ≠ some 0 := by
  induction used generalizing i with
  | nil => cases found
  | cons x rest ih =>
      unfold firstUnused at found
      split at found
      · rename_i zero
        cases found
        exact ⟨0, by simp, by simp [zero], by simp⟩
      · rename_i taken
        obtain ⟨j, value, free, before⟩ := ih found
        refine ⟨j + 1, by push_cast; omega, by simpa using free, ?_⟩
        intro k bound
        cases k with
        | zero => simpa using taken
        | succ k => simpa using before k (by omega)

/-- Entries of `arr` covering `[low, high)` are at least as many as the values there. -/
theorem span_le_length (arr : List ℤ) (low high : ℤ)
    (covered : ∀ d, low ≤ d → d < high → d ∈ arr) : high - low ≤ arr.length := by
  have inclusion : Finset.Ico low high ⊆ arr.toFinset := by
    intro d member
    rw [Finset.mem_Ico] at member
    exact List.mem_toFinset.mpr (covered d member.1 member.2)
  have cards := (Finset.card_le_card inclusion).trans (List.toFinset_card_le arr)
  rw [Int.card_Ico] at cards
  omega

/-- One pass over the range either finds the least free value or shows that the
whole range is taken. -/
theorem scan_spec (arr : List ℤ) {lowerBound upperBound : ℤ} (bounds : lowerBound ≤ upperBound) :
    (∃ c, firstUnused (markUsed lowerBound upperBound
        (List.replicate (upperBound - lowerBound + 1).toNat 0) arr) lowerBound = some c ∧
      IsLeastFree {d | d ∈ arr} lowerBound c) ∨
    (firstUnused (markUsed lowerBound upperBound
        (List.replicate (upperBound - lowerBound + 1).toNat 0) arr) lowerBound = none ∧
      ∀ d, lowerBound ≤ d → d ≤ upperBound → d ∈ arr) := by
  have entry : ∀ j : ℕ, lowerBound + j ≤ upperBound →
      (markUsed lowerBound upperBound
        (List.replicate (upperBound - lowerBound + 1).toNat 0) arr)[j]? =
        if lowerBound + j ∈ arr then some 1 else some 0 := by
    intro j reach
    have inside : j < (upperBound - lowerBound + 1).toNat := by omega
    rw [markUsed_getElem? _ _ _ _ _ (by simpa using inside) reach]
    simp [inside]
  rcases search : firstUnused (markUsed lowerBound upperBound
      (List.replicate (upperBound - lowerBound + 1).toNat 0) arr) lowerBound with _ | c
  · refine Or.inr ⟨rfl, ?_⟩
    intro d low high
    have reach : lowerBound + ((d - lowerBound).toNat : ℤ) = d := by omega
    have taken := firstUnused_none search (d - lowerBound).toNat
    rw [entry _ (by omega), reach] at taken
    by_contra missing
    simp [missing] at taken
  · refine Or.inl ⟨c, rfl, ?_⟩
    obtain ⟨j, value, free, before⟩ := firstUnused_some search
    have inside : j < (upperBound - lowerBound + 1).toNat := by
      have bound := (List.getElem?_eq_some_iff.mp free).1
      simpa [markUsed_length] using bound
    refine ⟨by omega, ?_, ?_⟩
    · intro member
      rw [entry j (by omega), ← value] at free
      simp [show c ∈ arr from member] at free
    · intro d low less
      have reach : lowerBound + ((d - lowerBound).toNat : ℤ) = d := by omega
      have taken := before (d - lowerBound).toNat (by omega)
      rw [entry _ (by omega), reach] at taken
      by_contra missing
      simp [show d ∉ arr from missing] at taken

/-- Two calls always suffice: the enlarged range holds more values than `arr` has
entries. The result is the least value from `lowerBound` on that `arr` lacks. -/
theorem getMinimalValueNotInArray_spec (arr : List ℤ) {lowerBound upperBound : ℤ}
    (bounds : lowerBound ≤ upperBound) :
    ∃ c, getMinimalValueNotInArray 2 arr lowerBound upperBound = some c ∧
      IsLeastFree {d | d ∈ arr} lowerBound c ∧ c ≤ lowerBound + arr.length := by
  have bounded : ∀ c, IsLeastFree {d | d ∈ arr} lowerBound c → c ≤ lowerBound + arr.length := by
    intro c least
    have := span_le_length arr lowerBound c least.below
    omega
  have positive : ¬ upperBound - lowerBound + 1 ≤ 0 := by omega
  rcases scan_spec arr bounds with ⟨c, found, least⟩ | ⟨failed, full⟩
  · refine ⟨c, ?_, least, bounded c least⟩
    simp only [getMinimalValueNotInArray, positive, if_false, found]
  · have wider : lowerBound ≤ upperBound + arr.length + 1 := by omega
    have positive' : ¬ upperBound + arr.length + 1 - lowerBound + 1 ≤ 0 := by omega
    rcases scan_spec arr wider with ⟨c, found, least⟩ | ⟨_, full'⟩
    · refine ⟨c, ?_, least, bounded c least⟩
      simp only [getMinimalValueNotInArray, positive, positive', if_false, failed, found]
    · have tooMany := span_le_length arr lowerBound (upperBound + arr.length + 1)
        (fun d low less => full' d low (by omega))
      omega

end DistributedColoring

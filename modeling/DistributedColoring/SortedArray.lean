import Mathlib.Data.Nat.Notation
import Mathlib.Order.Lattice

set_option autoImplicit false

/- Arrays whose numbers ascend, seen as functions of the index. An element is looked for by
bisection, which also tells where it would have to be inserted. -/
namespace SortedArray

variable {α : Type*} [LinearOrder α] {f g : ℕ → α} {n p : ℕ} {v : α}

/-- The first `n` elements. -/
def elements (f : ℕ → α) (n : ℕ) : List α := (List.range n).map f

def Ascending (f : ℕ → α) (n : ℕ) : Prop := ∀ i j, i < j → j < n → f i < f j

/-- Is there such an element from `lo` on and before `hi`, and where? -/
def bisect (f : ℕ → α) (v : α) (lo hi : ℕ) : Bool × ℕ :=
  if lo < hi then
    let mid := (lo + (hi - 1)) / 2
    if f mid < v then bisect f v (mid + 1) hi
    else if v < f mid then bisect f v lo mid
    else (true, mid)
  else (false, lo)
termination_by hi - lo

/-- The elements before `p` are smaller, and those from `p` on are larger. -/
structure Gap (f : ℕ → α) (n : ℕ) (v : α) (p : ℕ) : Prop where
  inside : p ≤ n
  below : ∀ i, i < p → f i < v
  above : ∀ i, p ≤ i → i < n → v < f i

/-- The array `g` has `v` at `p` in addition. -/
structure Inserts (f : ℕ → α) (n : ℕ) (v : α) (p : ℕ) (g : ℕ → α) : Prop where
  before : ∀ i, i < p → g i = f i
  here : g p = v
  behind : ∀ i, p ≤ i → i < n → g (i + 1) = f i

/-- The array `g` lacks the element at `p`. -/
structure Deletes (f : ℕ → α) (n : ℕ) (p : ℕ) (g : ℕ → α) : Prop where
  before : ∀ i, i < p → g i = f i
  behind : ∀ i, p ≤ i → i + 1 < n → g i = f (i + 1)

omit [LinearOrder α] in
theorem mem_elements : v ∈ elements f n ↔ ∃ i, i < n ∧ f i = v := by
  simp only [elements, List.mem_map, List.mem_range]

omit [LinearOrder α] in
theorem length_elements (f : ℕ → α) (n : ℕ) : (elements f n).length = n := by
  rw [elements, List.length_map, List.length_range]

theorem Ascending.pairwise (ascending : Ascending f n) : (elements f n).Pairwise (· < ·) := by
  rw [elements, List.pairwise_map]
  refine List.pairwise_lt_range.imp_of_mem fun _ last less => ?_
  exact ascending _ _ less (List.mem_range.mp last)

/-- A gap has no place for the element itself. -/
theorem Gap.not_mem (gap : Gap f n v p) : v ∉ elements f n := by
  intro member
  obtain ⟨i, inside, same⟩ := mem_elements.mp member
  by_cases early : i < p
  · exact absurd same (gap.below i early).ne
  · exact absurd same (gap.above i (Nat.not_lt.mp early) inside).ne'

/-- Bisection keeps the smaller elements before `lo` and the larger ones from `hi` on. -/
theorem bisect_spec (ascending : Ascending f n) {lo hi : ℕ} (ordered : lo ≤ hi) (bound : hi ≤ n)
    (below : ∀ i, i < lo → f i < v) (above : ∀ i, hi ≤ i → i < n → v < f i) :
    (bisect f v lo hi).1 = true ∧ (bisect f v lo hi).2 < n ∧ f (bisect f v lo hi).2 = v ∨
      (bisect f v lo hi).1 = false ∧ Gap f n v (bisect f v lo hi).2 := by
  rw [bisect]
  split
  · rename_i some_left
    have inside : (lo + (hi - 1)) / 2 < hi := by omega
    have least : lo ≤ (lo + (hi - 1)) / 2 := by omega
    simp only
    generalize (lo + (hi - 1)) / 2 = mid at inside least
    split
    · rename_i small
      refine bisect_spec ascending (by omega) bound ?_ above
      intro i early
      rcases Nat.lt_succ_iff_lt_or_eq.mp early with earlier | rfl
      · exact (ascending i mid earlier (by omega)).trans small
      · exact small
    · split
      · rename_i large
        refine bisect_spec ascending least (by omega) below ?_
        intro i late within
        rcases Nat.lt_or_eq_of_le late with later | rfl
        · exact large.trans (ascending mid i later within)
        · exact large
      · rename_i large small
        exact .inl ⟨rfl, by omega, le_antisymm (not_lt.mp small) (not_lt.mp large)⟩
  · have same : lo = hi := by omega
    exact .inr ⟨rfl, same ▸ bound, below, fun i late => above i (same ▸ late)⟩
termination_by hi - lo

/-- An element that fills its gap leaves the array ascending. -/
theorem Inserts.ascending (inserts : Inserts f n v p g) (gap : Gap f n v p)
    (ascending : Ascending f n) : Ascending g (n + 1) := by
  intro i j less bound
  rcases Nat.lt_trichotomy j p with early | rfl | late
  · rw [inserts.before i (by omega), inserts.before j early]
    exact ascending i j less (by have := gap.inside; omega)
  · rw [inserts.before i less, inserts.here]
    exact gap.below i less
  · obtain ⟨j, rfl⟩ := Nat.exists_eq_succ_of_ne_zero (Nat.ne_zero_of_lt late)
    rw [inserts.behind j (by omega) (by omega)]
    rcases Nat.lt_trichotomy i p with before | rfl | behind
    · rw [inserts.before i before]
      exact ascending i j (by omega) (by omega)
    · rw [inserts.here]
      exact gap.above j (by omega) (by omega)
    · obtain ⟨i, rfl⟩ := Nat.exists_eq_succ_of_ne_zero (Nat.ne_zero_of_lt behind)
      rw [inserts.behind i (by omega) (by omega)]
      exact ascending i j (by omega) (by omega)

omit [LinearOrder α] in
theorem Inserts.mem_iff (inserts : Inserts f n v p g) (inside : p ≤ n) {x : α} :
    x ∈ elements g (n + 1) ↔ x = v ∨ x ∈ elements f n := by
  rw [mem_elements, mem_elements]
  constructor
  · rintro ⟨i, bound, rfl⟩
    rcases Nat.lt_trichotomy i p with before | rfl | behind
    · exact .inr ⟨i, by omega, (inserts.before i before).symm⟩
    · exact .inl inserts.here
    · obtain ⟨i, rfl⟩ := Nat.exists_eq_succ_of_ne_zero (Nat.ne_zero_of_lt behind)
      exact .inr ⟨i, by omega, (inserts.behind i (by omega) (by omega)).symm⟩
  · rintro (rfl | ⟨i, bound, rfl⟩)
    · exact ⟨p, by omega, inserts.here⟩
    · by_cases before : i < p
      · exact ⟨i, by omega, inserts.before i before⟩
      · exact ⟨i + 1, by omega, inserts.behind i (by omega) bound⟩

theorem Deletes.ascending (deletes : Deletes f n p g) (ascending : Ascending f n) :
    Ascending g (n - 1) := by
  intro i j less bound
  by_cases late : j < p
  · rw [deletes.before i (by omega), deletes.before j late]
    exact ascending i j less (by omega)
  · rw [deletes.behind j (by omega) (by omega)]
    by_cases early : i < p
    · rw [deletes.before i early]
      exact ascending i (j + 1) (by omega) (by omega)
    · rw [deletes.behind i (by omega) (by omega)]
      exact ascending (i + 1) (j + 1) (by omega) (by omega)

theorem Deletes.mem_iff (deletes : Deletes f n p g) (ascending : Ascending f n) (inside : p < n)
    {x : α} : x ∈ elements g (n - 1) ↔ x ≠ f p ∧ x ∈ elements f n := by
  rw [mem_elements, mem_elements]
  constructor
  · rintro ⟨i, bound, rfl⟩
    by_cases before : i < p
    · rw [deletes.before i before]
      exact ⟨(ascending i p before inside).ne, i, by omega, rfl⟩
    · rw [deletes.behind i (by omega) (by omega)]
      exact ⟨(ascending p (i + 1) (by omega) (by omega)).ne', i + 1, by omega, rfl⟩
  · rintro ⟨other, i, bound, rfl⟩
    rcases Nat.lt_trichotomy i p with before | rfl | behind
    · exact ⟨i, by omega, deletes.before i before⟩
    · exact absurd rfl other
    · obtain ⟨i, rfl⟩ := Nat.exists_eq_succ_of_ne_zero (Nat.ne_zero_of_lt behind)
      exact ⟨i, by omega, deletes.behind i (by omega) bound⟩

end SortedArray

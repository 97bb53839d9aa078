import Mathlib.Data.Finset.Image
import Mathlib.Data.Fintype.Card
import Mathlib.Data.Set.Finite.Basic
import Mathlib.Order.Interval.Finset.Defs
import Mathlib.Order.Interval.Finset.Basic
import Mathlib.Data.Int.Interval
import Mathlib.Order.Lattice.Nat

set_option autoImplicit false

/- The sequential greedy algorithm on an arbitrary vertex type: vertices are
taken in a given order, and each takes the least colour from zero upwards that
no neighbour holds at that moment. Vertices not yet taken hold colour zero. -/
namespace GreedyColoring

/-- `c` is the least colour from `low` upwards outside `used`. -/
structure IsLeastFree (used : Set ℤ) (low c : ℤ) : Prop where
  low_le : low ≤ c
  free : c ∉ used
  below : ∀ d, low ≤ d → d < c → d ∈ used

theorem IsLeastFree.unique {used : Set ℤ} {low c d : ℤ} (hc : IsLeastFree used low c)
    (hd : IsLeastFree used low d) : c = d := by
  rcases lt_trichotomy c d with less | same | more
  · exact absurd (hd.below c hc.low_le less) hc.free
  · exact same
  · exact absurd (hc.below d hd.low_le more) hd.free

noncomputable def leastFree (used : Finset ℤ) : ℤ :=
  ((sInf {c : ℕ | (c : ℤ) ∉ used} : ℕ) : ℤ)

theorem leastFree_isLeastFree (used : Finset ℤ) :
    IsLeastFree (used : Set ℤ) 0 (leastFree used) := by
  have nonempty : {c : ℕ | (c : ℤ) ∉ used}.Nonempty := by
    by_contra empty
    have inside : ∀ c : ℕ, (c : ℤ) ∈ used := by
      intro c
      by_contra outside
      exact empty ⟨c, outside⟩
    refine (Set.infinite_range_of_injective (f := fun c : ℕ => (c : ℤ))
      fun _ _ same => Int.ofNat.inj same).mono ?_ used.finite_toSet
    rintro _ ⟨c, rfl⟩
    exact inside c
  refine ⟨Int.natCast_nonneg _, Nat.sInf_mem nonempty, ?_⟩
  intro d low less
  obtain ⟨c, rfl⟩ := Int.eq_ofNat_of_zero_le low
  by_contra outside
  have bound : sInf {c : ℕ | (c : ℤ) ∉ used} ≤ c := Nat.sInf_le outside
  unfold leastFree at less
  omega

theorem leastFree_eq {used : Finset ℤ} {c : ℤ} (least : IsLeastFree (used : Set ℤ) 0 c) :
    leastFree used = c :=
  (leastFree_isLeastFree used).unique least

variable {ι : Type} [DecidableEq ι]

/-- One turn of the sequential algorithm. -/
noncomputable def turn (nbrs : ι → Finset ι) (color : ι → ℤ) (v : ι) : ι → ℤ :=
  Function.update color v (leastFree ((nbrs v).image color))

noncomputable def greedy (nbrs : ι → Finset ι) (order : List ι) : ι → ℤ :=
  order.foldl (turn nbrs) fun _ => 0

theorem greedy_snoc (nbrs : ι → Finset ι) (order : List ι) (v : ι) :
    greedy nbrs (order ++ [v]) = turn nbrs (greedy nbrs order) v := by
  simp only [greedy, List.foldl_append, List.foldl_cons, List.foldl_nil]

/-- A vertex taken last differs from every neighbour. -/
theorem turn_ne (nbrs : ι → Finset ι) (color : ι → ℤ) {u v : ι} (adjacent : u ∈ nbrs v)
    (distinct : u ≠ v) : turn nbrs color v u ≠ turn nbrs color v v := by
  rw [turn, Function.update_self, Function.update_of_ne distinct]
  intro same
  apply (leastFree_isLeastFree ((nbrs v).image color)).free
  rw [← same]
  exact Finset.mem_coe.mpr (Finset.mem_image_of_mem color adjacent)

/-- No edge between two vertices of the order is monochromatic. -/
theorem greedy_proper (nbrs : ι → Finset ι) (symmetric : ∀ u v, u ∈ nbrs v → v ∈ nbrs u)
    (order : List ι) (nodup : order.Nodup) {u v : ι} (hu : u ∈ order) (hv : v ∈ order)
    (adjacent : u ∈ nbrs v) (distinct : u ≠ v) : greedy nbrs order u ≠ greedy nbrs order v := by
  induction order using List.reverseRecOn with
  | nil => cases hu
  | append_singleton order w ih =>
      have fresh : w ∉ order := fun member =>
        (List.nodup_append.mp nodup).2.2 w member w (List.mem_singleton_self w) rfl
      rw [greedy_snoc]
      by_cases lastV : v = w
      · subst lastV
        exact turn_ne nbrs _ adjacent distinct
      · by_cases lastU : u = w
        · subst lastU
          exact (turn_ne nbrs _ (symmetric u v adjacent) (Ne.symm distinct)).symm
        · simp only [List.mem_append, List.mem_singleton, lastU, lastV, or_false] at hu hv
          rw [turn, Function.update_of_ne lastU, Function.update_of_ne lastV]
          exact ih (List.nodup_append.mp nodup).1 hu hv

end GreedyColoring

import DistributedColoring.ByteMemory
import Mathlib.Algebra.Order.Ring.Int
import Mathlib.Tactic.LinearCombination
import Mathlib.Tactic.Positivity

set_option autoImplicit false

/- Arrays of signed numbers in a block of bytes. A number takes a fixed number of bytes, the
lowest first, in two's complement. The same bytes can be read with another width, and an array
is widened in place from its end. -/
namespace PackedArray

open ByteMemory

/-- The `w` bytes of a number. -/
def toBytes : ℕ → ℤ → List UInt8
  | 0, _ => []
  | w + 1, v => UInt8.ofNat (v % 256).toNat :: toBytes w (v / 256)

def unsigned : List UInt8 → ℕ
  | [] => 0
  | b :: bytes => b.toNat + 256 * unsigned bytes

/-- The number in a block of bytes. -/
def ofBytes (bytes : List UInt8) : ℤ :=
  if 2 * unsigned bytes < 256 ^ bytes.length then unsigned bytes
  else unsigned bytes - 256 ^ bytes.length

/-- The numbers that `w` bytes can hold. -/
def InRange (w : ℕ) (v : ℤ) : Prop := -256 ^ w ≤ 2 * v ∧ 2 * v < 256 ^ w

/-- The number in cell `i`. -/
def get (w : ℕ) (mem : List UInt8) (i : ℕ) : ℤ := ofBytes (read mem (i * w) w)

def set (w : ℕ) (mem : List UInt8) (i : ℕ) (v : ℤ) : List UInt8 :=
  write mem (i * w) (toBytes w v)

/-- `count` cells are copied from one place to another, which may overlap. -/
def move (w : ℕ) (mem : List UInt8) (source target count : ℕ) : List UInt8 :=
  write mem (target * w) (read mem (source * w) (count * w))

/-- The first `n` numbers are stored again with width `w'`, the last one first, each `shift`
cells further. -/
def widen (w w' shift : ℕ) : ℕ → List UInt8 → List UInt8
  | 0, mem => mem
  | n + 1, mem => widen w w' shift n (set w' mem (n + shift) (get w mem n))

section Numbers

@[simp] theorem length_toBytes (w : ℕ) (v : ℤ) : (toBytes w v).length = w := by
  induction w generalizing v with
  | zero => rfl
  | succ w ih => rw [toBytes, List.length_cons, ih]

theorem unsigned_lt (bytes : List UInt8) : unsigned bytes < 256 ^ bytes.length := by
  induction bytes with
  | nil => exact Nat.one_pos
  | cons b bytes ih =>
      have byte : b.toNat < 256 := b.toNat_lt
      rw [unsigned, List.length_cons, Nat.pow_succ]
      omega

theorem unsigned_toBytes (w : ℕ) (v : ℤ) : (unsigned (toBytes w v) : ℤ) = v % 256 ^ w := by
  induction w generalizing v with
  | zero =>
      rw [pow_zero, Int.emod_one]
      rfl
  | succ w ih =>
      have positive : (0 : ℤ) < 256 ^ w := by positivity
      have byte : ((UInt8.ofNat (v % 256).toNat).toNat : ℤ) = v % 256 := by
        rw [UInt8.toNat_ofNat']
        omega
      have low := Int.emod_nonneg (v / 256) positive.ne'
      have high := Int.emod_lt_of_pos (v / 256) positive
      have split := Int.emod_add_mul_ediv (v / 256) (256 ^ w)
      rw [toBytes, unsigned]
      push_cast
      rw [byte, ih, pow_succ]
      symm
      refine ((Int.ediv_emod_unique (by omega) (q := v / 256 / 256 ^ w)).mpr ⟨?_, ?_, ?_⟩).2
      · have whole := Int.emod_add_mul_ediv v 256
        linear_combination whole + 256 * split
      · omega
      · omega

theorem ofBytes_toBytes {w : ℕ} {v : ℤ} (range : InRange w v) : ofBytes (toBytes w v) = v := by
  obtain ⟨low, high⟩ := range
  have value := unsigned_toBytes w v
  have positive : (0 : ℤ) < 256 ^ w := by positivity
  have cast : ((256 ^ w : ℕ) : ℤ) = 256 ^ w := by push_cast; rfl
  unfold ofBytes
  rw [length_toBytes]
  by_cases negative : v < 0
  · have wrapped : v % 256 ^ w = v + 256 ^ w := by
      rw [← Int.add_emod_right]
      exact Int.emod_eq_of_lt (by omega) (by omega)
    rw [if_neg (by omega)]
    omega
  · rw [Int.emod_eq_of_lt (by omega) (by omega)] at value
    rw [if_pos (by omega), value]

/-- What is read is in range. -/
theorem inRange_ofBytes (bytes : List UInt8) : InRange bytes.length (ofBytes bytes) := by
  have bound := unsigned_lt bytes
  have cast : ((256 ^ bytes.length : ℕ) : ℤ) = 256 ^ bytes.length := by push_cast; rfl
  unfold InRange ofBytes
  split <;> omega

theorem InRange.mono {w w' : ℕ} {v : ℤ} (range : InRange w v) (le : w ≤ w') : InRange w' v := by
  have more : (256 : ℤ) ^ w ≤ 256 ^ w' := pow_le_pow_right₀ (by decide) le
  obtain ⟨low, high⟩ := range
  constructor <;> omega

end Numbers

section Cells

variable {w w' i j n : ℕ} {mem : List UInt8} {v : ℤ}

theorem inRange_get (fits : (i + 1) * w ≤ mem.length) : InRange w (get w mem i) := by
  have length : (read mem (i * w) w).length = w := length_read (by rw [← Nat.succ_mul]; exact fits)
  have range := inRange_ofBytes (read mem (i * w) w)
  rwa [length] at range

theorem length_set (fits : (i + 1) * w ≤ mem.length) : (set w mem i v).length = mem.length :=
  length_write (by rw [length_toBytes, ← Nat.succ_mul]; exact fits)

theorem get_set_self (fits : (i + 1) * w ≤ mem.length) (range : InRange w v) :
    get w (set w mem i v) i = v := by
  have room : i * w + (toBytes w v).length ≤ mem.length := by
    rw [length_toBytes, ← Nat.succ_mul]
    exact fits
  have block := read_write_inside (j := 0) (n := w) room (by rw [length_toBytes]; omega)
  have all : read (toBytes w v) 0 w = toBytes w v := by
    rw [ByteMemory.read, List.drop_zero, List.take_of_length_le (by rw [length_toBytes])]
  rw [Nat.add_zero, all] at block
  rw [get, set, block, ofBytes_toBytes range]

/-- A cell of any width that lies apart keeps its number. -/
theorem get_set_apart (fits : (i + 1) * w ≤ mem.length) (bound : (j + 1) * w' ≤ mem.length)
    (apart : (j + 1) * w' ≤ i * w ∨ (i + 1) * w ≤ j * w') :
    get w' (set w mem i v) j = get w' mem j := by
  have room : i * w + (toBytes w v).length ≤ mem.length := by
    rw [length_toBytes, ← Nat.succ_mul]
    exact fits
  rw [get, get, set, read_write_apart room (by rw [← Nat.succ_mul]; exact bound)]
  rw [length_toBytes, ← Nat.succ_mul, ← Nat.succ_mul]
  exact apart

theorem get_set_ne (fits : (i + 1) * w ≤ mem.length) (bound : (j + 1) * w ≤ mem.length)
    (other : j ≠ i) : get w (set w mem i v) j = get w mem j := by
  refine get_set_apart fits bound ?_
  rcases Nat.lt_or_gt_of_ne other with before | after
  · exact .inl (Nat.mul_le_mul_right w before)
  · exact .inr (Nat.mul_le_mul_right w after)

section Move

variable {source target count : ℕ}

theorem length_move_block (fits : (source + count) * w ≤ mem.length) :
    (read mem (source * w) (count * w)).length = count * w :=
  length_read (by rw [← Nat.add_mul]; exact fits)

theorem length_move (fits : (source + count) * w ≤ mem.length)
    (room : (target + count) * w ≤ mem.length) :
    (move w mem source target count).length = mem.length :=
  length_write (by rw [length_move_block fits, ← Nat.add_mul]; exact room)

theorem get_move_inside (fits : (source + count) * w ≤ mem.length)
    (room : (target + count) * w ≤ mem.length) (inside : i < count) :
    get w (move w mem source target count) (target + i) = get w mem (source + i) := by
  have cell : i * w + w ≤ count * w := by
    rw [← Nat.succ_mul]
    exact Nat.mul_le_mul_right w inside
  have length := length_move_block fits
  have fitting : target * w + (read mem (source * w) (count * w)).length ≤ mem.length := by
    rw [length, ← Nat.add_mul]
    exact room
  rw [← length] at cell
  rw [get, move, Nat.add_mul, read_write_inside fitting cell, get, Nat.add_mul]
  rw [length] at cell
  congr 1
  unfold ByteMemory.read
  rw [List.drop_take, List.take_take, List.drop_drop, Nat.min_eq_left (by omega)]

theorem get_move_outside (fits : (source + count) * w ≤ mem.length)
    (room : (target + count) * w ≤ mem.length) (bound : (j + 1) * w ≤ mem.length)
    (outside : j < target ∨ target + count ≤ j) :
    get w (move w mem source target count) j = get w mem j := by
  rw [get, get, move, read_write_apart (by rw [length_move_block fits, ← Nat.add_mul]; exact room)
    (by rw [← Nat.succ_mul]; exact bound)]
  rw [length_move_block fits, ← Nat.succ_mul, ← Nat.add_mul]
  exact outside.imp (Nat.mul_le_mul_right w) (Nat.mul_le_mul_right w)

end Move

/-- Widening from the end: a number is stored where only numbers lie that have been moved, so
none is lost. -/
theorem widen_spec (shift : ℕ) (wider : w ≤ w') (n : ℕ) (mem : List UInt8)
    (fits : (n + shift) * w' ≤ mem.length) :
    (widen w w' shift n mem).length = mem.length ∧
      (∀ i, i < n → get w' (widen w w' shift n mem) (i + shift) = get w mem i) ∧
        ∀ j, n + shift ≤ j → (j + 1) * w' ≤ mem.length →
          get w' (widen w w' shift n mem) j = get w' mem j := by
  induction n generalizing mem with
  | zero => exact ⟨rfl, fun i absurd => by omega, fun _ _ _ => rfl⟩
  | succ n ih =>
      have last : (n + shift + 1) * w' ≤ mem.length := by
        rw [Nat.add_right_comm]
        exact fits
      have old (i : ℕ) (le : i ≤ n) : (i + 1) * w ≤ (n + 1) * w' :=
        (Nat.mul_le_mul_right w (by omega)).trans (Nat.mul_le_mul_left _ wider)
      have inside (i : ℕ) (le : i ≤ n) : (i + 1) * w ≤ mem.length :=
        (old i le).trans ((Nat.mul_le_mul_right w' (by omega)).trans last)
      have range : InRange w' (get w mem n) := (inRange_get (inside n (Nat.le_refl n))).mono wider
      have stored : (set w' mem (n + shift) (get w mem n)).length = mem.length := length_set last
      obtain ⟨length, moved, kept⟩ := ih (set w' mem (n + shift) (get w mem n)) (by
        rw [stored]
        exact (Nat.mul_le_mul_right w' (by omega)).trans last)
      refine ⟨length.trans stored, ?_, ?_⟩
      · intro i below
        rcases Nat.lt_succ_iff_lt_or_eq.mp below with earlier | rfl
        · rw [widen, moved i earlier]
          refine get_set_apart last (inside i earlier.le) (.inl ?_)
          -- The cell ends before the place of the number that was moved first.
          calc (i + 1) * w ≤ n * w := Nat.mul_le_mul_right w earlier
            _ ≤ n * w' := Nat.mul_le_mul_left n wider
            _ ≤ (n + shift) * w' := Nat.mul_le_mul_right w' (Nat.le_add_right n shift)
        · rw [widen, kept _ (Nat.le_refl _) (by rw [stored]; exact last)]
          exact get_set_self last range
      · intro j above bound
        rw [widen, kept j (by omega) (by rw [stored]; exact bound)]
        exact get_set_ne last bound (by omega)

end Cells

end PackedArray

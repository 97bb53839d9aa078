import DistributedColoring.ByteMemory
import Mathlib.Data.Nat.ModEq

set_option autoImplicit false

/- A stream that only grows, and a memory that is written round and round with it. As
long as a position is among the last ones the memory has room for, its cell is found by
counting from the position the memory was started at. -/
namespace CircularWindow

open ByteMemory

variable {α : Type*} {mem stream : List α} {start lo hi p n : ℕ}

/-- The cell of position `p` in a memory of `size` cells. -/
def slot (size start p : ℕ) : ℕ := (p - start) % size

theorem slot_lt {size : ℕ} (pos : 0 < size) (start p : ℕ) : slot size start p < size :=
  Nat.mod_lt _ pos

theorem slot_add {size : ℕ} (after : start ≤ p) :
    slot size start (p + n) = (slot size start p + n) % size := by
  rw [slot, slot, Nat.mod_add_mod, Nat.sub_add_comm after]

/-- Positions that are less than a round apart have cells of their own. -/
theorem slot_ne {size q : ℕ} (after : start ≤ p) (less : p < q) (near : q < p + size) :
    slot size start p ≠ slot size start q := by
  intro same
  obtain ⟨gap, rfl⟩ := Nat.exists_eq_add_of_lt less
  have apart : size ∣ (p + gap + 1 - start) - (p - start) :=
    (Nat.modEq_iff_dvd' (by omega)).mp same
  have := Nat.le_of_dvd (by omega) apart
  omega

/-- The memory holds the positions of the stream from `lo` up to `hi`. -/
def Holds (mem : List α) (start : ℕ) (stream : List α) (lo hi : ℕ) : Prop :=
  ∀ p, lo ≤ p → p < hi → mem[slot mem.length start p]? = stream[p]?

theorem Holds.mono {lo' hi' : ℕ} (holds : Holds mem start stream lo hi) (lower : lo ≤ lo')
    (upper : hi' ≤ hi) : Holds mem start stream lo' hi' :=
  fun p above below => holds p (lower.trans above) (below.trans_le upper)

/-- A block that goes to the cell of the end of the stream, and not past the last cell,
drives out the positions a full round before its own. -/
theorem Holds.write (holds : Holds mem start stream lo stream.length) (block : List α)
    (begun : start ≤ lo) (ordered : lo ≤ stream.length)
    (room : slot mem.length start stream.length + block.length ≤ mem.length) :
    Holds (ByteMemory.write mem (slot mem.length start stream.length) block) start
      (stream ++ block) (max lo (stream.length + block.length - mem.length))
      (stream.length + block.length) := by
  intro p above below
  rw [length_write room]
  by_cases new : stream.length ≤ p
  · obtain ⟨j, rfl⟩ := Nat.exists_eq_add_of_le new
    have place : slot mem.length start (stream.length + j) =
        slot mem.length start stream.length + j := by
      rw [slot_add (begun.trans ordered), Nat.mod_eq_of_lt (by omega)]
    rw [place, getElem?_write_inside room (by omega) (by omega),
      List.getElem?_append_right (by omega)]
    congr 1
    omega
  · have apart : ∀ j, j < block.length →
        slot mem.length start p ≠ slot mem.length start stream.length + j := by
      intro j inside same
      have place : slot mem.length start (stream.length + j) =
          slot mem.length start stream.length + j := by
        rw [slot_add (begun.trans ordered), Nat.mod_eq_of_lt (by omega)]
      exact slot_ne (by omega) (by omega) (by omega) (same.trans place.symm)
    have outside : slot mem.length start p < slot mem.length start stream.length ∨
        slot mem.length start stream.length + block.length ≤ slot mem.length start p := by
      by_contra inside
      exact apart (slot mem.length start p - slot mem.length start stream.length)
        (by omega) (by omega)
    rw [getElem?_write_outside room outside, List.getElem?_append_left (by omega)]
    exact holds p (by omega) (by omega)

/-- A piece of the stream whose cells follow one another is read in one go. -/
theorem Holds.read (holds : Holds mem start stream lo hi) (begun : start ≤ lo)
    (above : lo ≤ p) (below : p + n ≤ hi) (within : hi ≤ stream.length)
    (room : slot mem.length start p + n ≤ mem.length) :
    ByteMemory.read mem (slot mem.length start p) n = ByteMemory.read stream p n := by
  apply read_eq_read room (by omega)
  intro k inside
  rw [← holds (p + k) (by omega) (by omega), slot_add (begun.trans above),
    Nat.mod_eq_of_lt (by omega)]

/-- A piece that runs over the last cell is read in two. -/
theorem Holds.read_around (holds : Holds mem start stream lo hi) (begun : start ≤ lo)
    (above : lo ≤ p) (below : p + (mem.length - slot mem.length start p) + n ≤ hi)
    (within : hi ≤ stream.length) (pos : 0 < mem.length) (room : n ≤ mem.length) :
    ByteMemory.read mem (slot mem.length start p) (mem.length - slot mem.length start p) ++
        ByteMemory.read mem 0 n =
      ByteMemory.read stream p (mem.length - slot mem.length start p + n) := by
  have bound := slot_lt pos start p
  have turn : slot mem.length start (p + (mem.length - slot mem.length start p)) = 0 := by
    rw [slot_add (begun.trans above), Nat.add_sub_cancel' bound.le, Nat.mod_self]
  have second := holds.read (n := n) begun
    (show lo ≤ p + (mem.length - slot mem.length start p) by omega) below within
    (by rw [turn]; omega)
  rw [turn] at second
  rw [second, holds.read begun above (by omega) within (by omega), read_append]

/-- The cells from `i` round to `j`, without `j` itself. -/
def between (mem : List α) (i j : ℕ) : List α :=
  if i ≤ j then ByteMemory.read mem i (j - i)
  else ByteMemory.read mem i (mem.length - i) ++ ByteMemory.read mem 0 j

/-- What is less than a round long lies between the cells of its two ends. -/
theorem Holds.between {q : ℕ} (holds : Holds mem start stream lo hi) (begun : start ≤ lo)
    (above : lo ≤ p) (ordered : p ≤ q) (below : q ≤ hi) (within : hi ≤ stream.length)
    (near : q < p + mem.length) :
    between mem (slot mem.length start p) (slot mem.length start q) =
      ByteMemory.read stream p (q - p) := by
  have pos : 0 < mem.length := by omega
  have bound := slot_lt pos start p
  obtain ⟨n, rfl⟩ := Nat.exists_eq_add_of_le ordered
  rw [slot_add (begun.trans above), Nat.add_sub_cancel_left, CircularWindow.between]
  by_cases last : slot mem.length start p + n < mem.length
  · rw [Nat.mod_eq_of_lt last, if_pos (Nat.le_add_right _ _), Nat.add_sub_cancel_left,
      holds.read begun above below within last.le]
  · have turn : (slot mem.length start p + n) % mem.length =
        slot mem.length start p + n - mem.length := by
      rw [Nat.mod_eq_sub_mod (by omega), Nat.mod_eq_of_lt (by omega)]
    rw [turn, if_neg (by omega), holds.read_around begun above (by omega) within pos (by omega)]
    congr 1
    omega

/-- The cells of the positions from `lo` to `hi`, copied to the front of another memory
that is started at `lo`. -/
theorem Holds.move {fresh : List α} (room : hi - lo ≤ fresh.length) (ordered : lo ≤ hi)
    (within : hi ≤ stream.length) :
    Holds (ByteMemory.write fresh 0 (ByteMemory.read stream lo (hi - lo))) lo stream lo hi := by
  have length : (ByteMemory.read stream lo (hi - lo)).length = hi - lo :=
    length_read (by omega)
  intro p above below
  have place : slot fresh.length lo p = p - lo := Nat.mod_eq_of_lt (by omega)
  rw [length_write (by omega), place, getElem?_write_inside (by omega) (by omega) (by omega),
    getElem?_read (by omega)]
  congr 1
  omega

end CircularWindow

import Mathlib.Data.List.Basic

set_option autoImplicit false

/- Blocks of cells in a memory of fixed size: what `memcpy` and `memmove` do to it. A
block that is copied to a place where it fits changes the cells it covers and no others. -/
namespace ByteMemory

variable {α : Type*}

/-- The `n` cells from `i` on. -/
def read (mem : List α) (i n : ℕ) : List α := (mem.drop i).take n

/-- The block is copied to `i`. -/
def write (mem : List α) (i : ℕ) (block : List α) : List α :=
  mem.take i ++ block ++ mem.drop (i + block.length)

section Read

variable {mem : List α} {i j m n : ℕ}

theorem length_read (bound : i + n ≤ mem.length) : (read mem i n).length = n := by
  rw [read, List.length_take, List.length_drop]
  omega

@[simp] theorem read_zero (mem : List α) (i : ℕ) : read mem i 0 = [] := List.take_zero

theorem getElem?_read (inside : j < n) : (read mem i n)[j]? = mem[i + j]? := by
  rw [read, List.getElem?_take_of_lt inside, List.getElem?_drop]

theorem read_append (mem : List α) (i m n : ℕ) :
    read mem i m ++ read mem (i + m) n = read mem i (m + n) := by
  rw [read, read, read, ← List.drop_drop, List.take_add]

/-- A block is known by its cells. -/
theorem read_eq_read {other : List α} (bound : i + n ≤ mem.length) (fits : j + n ≤ other.length)
    (cells : ∀ k, k < n → mem[i + k]? = other[j + k]?) : read mem i n = read other j n := by
  apply List.ext_getElem?
  intro k
  by_cases inside : k < n
  · rw [getElem?_read inside, getElem?_read inside, cells k inside]
  · rw [List.getElem?_eq_none (by rw [length_read bound]; omega),
      List.getElem?_eq_none (by rw [length_read fits]; omega)]

/-- What is read does not change when more is appended. -/
theorem read_append_right (more : List α) (bound : i + n ≤ mem.length) :
    read (mem ++ more) i n = read mem i n := by
  rw [read, read, List.drop_append_of_le_length (by omega),
    List.take_append_of_le_length (by rw [List.length_drop]; omega)]

end Read

section Write

variable {mem block : List α} {i j n : ℕ}

@[simp] theorem write_nil (mem : List α) (i : ℕ) : write mem i [] = mem := by
  simp [write]

theorem length_write (room : i + block.length ≤ mem.length) :
    (write mem i block).length = mem.length := by
  rw [write, List.length_append, List.length_append, List.length_take, List.length_drop]
  omega

theorem getElem?_write_inside (room : i + block.length ≤ mem.length) (lower : i ≤ j)
    (upper : j < i + block.length) : (write mem i block)[j]? = block[j - i]? := by
  have length : (mem.take i).length = i := by
    rw [List.length_take]
    omega
  rw [write, List.append_assoc, List.getElem?_append_right (by omega), length,
    List.getElem?_append_left (by omega)]

theorem getElem?_write_outside (room : i + block.length ≤ mem.length)
    (outside : j < i ∨ i + block.length ≤ j) : (write mem i block)[j]? = mem[j]? := by
  have length : (mem.take i).length = i := by
    rw [List.length_take]
    omega
  rcases outside with before | after
  · rw [write, List.append_assoc, List.getElem?_append_left (by omega),
      List.getElem?_take_of_lt before]
  · rw [write, List.getElem?_append_right (by rw [List.length_append]; omega),
      List.getElem?_drop, List.length_append, length]
    congr 1
    omega

/-- What is read inside the block is read from the block. -/
theorem read_write_inside (room : i + block.length ≤ mem.length) (within : j + n ≤ block.length) :
    read (write mem i block) (i + j) n = read block j n := by
  refine read_eq_read (by rw [length_write room]; omega) within fun k inside => ?_
  have cell := getElem?_write_inside (j := i + j + k) room (by omega) (by omega)
  rw [cell]
  congr 1
  omega

/-- What is read apart from the block does not change. -/
theorem read_write_apart (room : i + block.length ≤ mem.length) (bound : j + n ≤ mem.length)
    (apart : j + n ≤ i ∨ i + block.length ≤ j) : read (write mem i block) j n = read mem j n := by
  refine read_eq_read (by rw [length_write room]; exact bound) bound fun k inside => ?_
  exact getElem?_write_outside room (by omega)

end Write

end ByteMemory

import Mathlib.Data.List.DropRight
import Mathlib.Data.List.Rotate

set_option autoImplicit false

/- Ring buffers: an array of fixed size that is written round and round, so that
it holds the last values written. Several arrays may share one cursor. -/
namespace RingBuffer

variable {α : Type*} {size : ℕ}

theorem map_rtake {β : Type*} (f : α → β) (xs : List α) (n : ℕ) :
    (xs.map f).rtake n = (xs.rtake n).map f := by
  rw [List.rtake, List.rtake, List.length_map, List.map_drop]

theorem length_rtake (xs : List α) (n : ℕ) : (xs.rtake n).length = min xs.length n := by
  rw [List.rtake, List.length_drop]
  omega

theorem rtake_of_length_le {xs : List α} {n : ℕ} (short : xs.length ≤ n) : xs.rtake n = xs := by
  rw [List.rtake, Nat.sub_eq_zero_of_le short, List.drop_zero]

theorem rtake_append_rtake (xs ys : List α) (n : ℕ) :
    (xs.rtake n ++ ys).rtake n = (xs ++ ys).rtake n := by
  simp only [List.rtake_eq_reverse_take_reverse, List.reverse_append, List.reverse_reverse,
    List.take_append, List.take_take]
  rw [min_eq_left (Nat.sub_le n _)]

/-- The slot of the next write and the number of slots in use. The slots are filled
from the first one on before any of them is used again. -/
structure Cursor (size : ℕ) where
  head : ℕ
  count : ℕ
  head_lt : head < size
  filling : count = size ∨ head = count

namespace Cursor

theorem count_le (cursor : Cursor size) : cursor.count ≤ size := by
  have := cursor.head_lt
  rcases cursor.filling with full | filling <;> omega

theorem next_filling (cursor : Cursor size) :
    (if cursor.count < size then cursor.count + 1 else cursor.count) = size ∨
      (cursor.head + 1) % size =
        if cursor.count < size then cursor.count + 1 else cursor.count := by
  have bound := cursor.head_lt
  rcases cursor.filling with full | filling
  · left
    rw [if_neg (by omega), full]
  · rw [if_pos (by omega), ← filling]
    by_cases last : cursor.head + 1 = size
    · exact .inl last
    · exact .inr (Nat.mod_eq_of_lt (by omega))

def next (cursor : Cursor size) : Cursor size where
  head := (cursor.head + 1) % size
  count := if cursor.count < size then cursor.count + 1 else cursor.count
  head_lt := Nat.mod_lt _ (Nat.zero_lt_of_lt cursor.head_lt)
  filling := cursor.next_filling

/-- The slot that holds the oldest of the values in use. -/
def oldest (cursor : Cursor size) : ℕ := (cursor.head + size - cursor.count) % size

theorem oldest_lt (cursor : Cursor size) : cursor.oldest < size :=
  Nat.mod_lt _ (Nat.zero_lt_of_lt cursor.head_lt)

theorem oldest_of_full {cursor : Cursor size} (full : cursor.count = size) :
    cursor.oldest = cursor.head := by
  rw [oldest, full, Nat.add_sub_cancel, Nat.mod_eq_of_lt cursor.head_lt]

theorem oldest_of_filling {cursor : Cursor size} (filling : cursor.head = cursor.count) :
    cursor.oldest = 0 := by
  rw [oldest, filling, Nat.add_sub_cancel_left, Nat.mod_self]

theorem next_count (cursor : Cursor size) : cursor.next.count = min (cursor.count + 1) size := by
  have bound := cursor.count_le
  show (if cursor.count < size then cursor.count + 1 else cursor.count) = _
  split <;> omega

end Cursor

/-- An array with its cursor. -/
structure Ring (α : Type*) (size : ℕ) extends Cursor size where
  slots : Vector α size

namespace Ring

def write (ring : Ring α size) (x : α) : Ring α size where
  toCursor := ring.toCursor.next
  slots := ring.slots.set ring.head x ring.head_lt

/-- The slots in use, in the order of the array. -/
def used (ring : Ring α size) : List α := ring.slots.toList.take ring.count

/-- The values in use, the oldest first. -/
def contents (ring : Ring α size) : List α := ring.used.rotate ring.head

theorem used_length (ring : Ring α size) : ring.used.length = ring.count := by
  simp [used, ring.count_le]

theorem contents_length (ring : Ring α size) : ring.contents.length = ring.count := by
  rw [contents, List.length_rotate, used_length]

theorem contents_perm (ring : Ring α size) : ring.contents.Perm ring.used :=
  List.rotate_perm _ _

theorem contents_of_filling {ring : Ring α size} (filling : ring.head = ring.count) :
    ring.contents = ring.used := by
  rw [contents, filling, ← used_length, List.rotate_length]

theorem contents_of_full {ring : Ring α size} (full : ring.count = size) :
    ring.contents = ring.slots.toList.drop ring.head ++ ring.slots.toList.take ring.head := by
  have all : ring.used = ring.slots.toList := by
    rw [used, full]
    exact List.take_of_length_le (by simp)
  rw [contents, all]
  exact List.rotate_eq_drop_append_take (by simpa using ring.head_lt.le)

theorem contents_head? {ring : Ring α size} (nonempty : ring.count ≠ 0) :
    ring.contents.head? = some (ring.slots.get ⟨ring.oldest, ring.oldest_lt⟩) := by
  have bound := ring.head_lt
  rcases ring.filling with full | filling
  · have first : ring.slots.toList.drop ring.head ≠ [] := by
      simpa using bound
    rw [contents_of_full full, List.head?_append_of_ne_nil _ first, List.head?_drop]
    simp only [Cursor.oldest_of_full full, Vector.getElem?_toList, Vector.getElem?_eq_getElem bound]
    rfl
  · rw [contents_of_filling filling, used, List.head?_take, if_neg nonempty, List.head?_eq_getElem?]
    simp only [Cursor.oldest_of_filling filling, Vector.getElem?_toList,
      Vector.getElem?_eq_getElem (Nat.zero_lt_of_lt bound)]
    rfl

theorem write_slots (ring : Ring α size) (x : α) : (ring.write x).slots.toList =
    ring.slots.toList.take ring.head ++ x :: ring.slots.toList.drop (ring.head + 1) := by
  show (ring.slots.set ring.head x ring.head_lt).toList = _
  rw [Vector.toList_set, List.set_eq_take_append_cons_drop, if_pos (by simpa using ring.head_lt)]

theorem length_take_head (ring : Ring α size) :
    (ring.slots.toList.take ring.head).length = ring.head := by
  simp [ring.head_lt.le]

theorem write_head_of_last {ring : Ring α size} (last : ring.head + 1 = size) (x : α) :
    (ring.write x).head = 0 := by
  show (ring.head + 1) % size = 0
  rw [last, Nat.mod_self]

theorem write_head_of_ne {ring : Ring α size} (inside : ring.head + 1 ≠ size) (x : α) :
    (ring.write x).head = ring.head + 1 := by
  have bound := ring.head_lt
  exact Nat.mod_eq_of_lt (by omega)

theorem contents_write_of_filling {ring : Ring α size} (filling : ring.head = ring.count) (x : α) :
    (ring.write x).contents = ring.contents ++ [x] := by
  have bound := ring.head_lt
  have front := ring.length_take_head
  have count : (ring.write x).count = ring.head + 1 := by
    rw [write, Cursor.next_count, ← filling]
    omega
  have used_eq : (ring.write x).used = ring.used ++ [x] := by
    rw [used, count, write_slots, used, ← filling, List.take_append, front,
      Nat.add_sub_cancel_left, List.take_of_length_le (by omega)]
    rfl
  rw [contents_of_filling filling, ← used_eq]
  -- The last free slot brings the head back to the first one.
  by_cases last : ring.head + 1 = size
  · rw [contents, write_head_of_last last, List.rotate_zero]
  · apply contents_of_filling
    rw [count, write_head_of_ne last]

theorem contents_write_of_full {ring : Ring α size} (full : ring.count = size) (x : α) :
    (ring.write x).contents = ring.contents.tail ++ [x] := by
  have bound := ring.head_lt
  have front := ring.length_take_head
  have first : ring.slots.toList.drop ring.head ≠ [] := by
    simpa using bound
  have full' : (ring.write x).count = size := by
    rw [write, Cursor.next_count, full]
    omega
  rw [contents_of_full full', contents_of_full full, List.tail_append_of_ne_nil first,
    List.tail_drop, write_slots]
  by_cases last : ring.head + 1 = size
  · have nothing : ring.slots.toList.drop (ring.head + 1) = [] := by
      rw [last]
      exact List.drop_of_length_le (by simp)
    simp [write_head_of_last last, nothing]
  · rw [write_head_of_ne last, List.drop_append, List.take_append, front, Nat.add_sub_cancel_left,
      List.drop_of_length_le (by omega), List.take_of_length_le (by omega)]
    simp

/-- A write appends a value and, once the ring is full, drops the oldest one. -/
theorem contents_write (ring : Ring α size) (x : α) :
    (ring.write x).contents = (ring.contents ++ [x]).rtake size := by
  have bound := ring.head_lt
  rcases ring.filling with full | filling
  · have length : ring.contents.length = size := ring.contents_length.trans full
    have some_slot : ring.contents ≠ [] := by
      rw [← List.length_pos_iff]
      omega
    rw [contents_write_of_full full, List.rtake, List.length_append, length, List.length_singleton,
      Nat.add_sub_cancel_left, List.drop_one, List.tail_append_of_ne_nil some_slot]
  · have length : (ring.contents ++ [x]).length ≤ size := by
      rw [List.length_append, contents_length, List.length_singleton]
      omega
    rw [contents_write_of_filling filling, rtake_of_length_le length]

/-- Any number of writes leaves the last values that fit. -/
theorem contents_foldl_write (ring : Ring α size) (xs : List α) :
    (xs.foldl write ring).contents = (ring.contents ++ xs).rtake size := by
  induction xs generalizing ring with
  | nil =>
      have length : ring.contents.length ≤ size := ring.contents_length.trans_le ring.count_le
      rw [List.foldl_nil, List.append_nil, rtake_of_length_le length]
  | cons x xs ih =>
      rw [List.foldl_cons, ih, contents_write, rtake_append_rtake, List.append_assoc,
        List.singleton_append]

theorem head_foldl_write (ring : Ring α size) (xs : List α) :
    (xs.foldl write ring).head = (ring.head + xs.length) % size := by
  induction xs generalizing ring with
  | nil => exact (Nat.mod_eq_of_lt ring.head_lt).symm
  | cons x xs ih =>
      rw [List.foldl_cons, ih]
      show ((ring.head + 1) % size + xs.length) % size = _
      rw [Nat.mod_add_mod, List.length_cons]
      congr 1
      omega

end Ring
end RingBuffer

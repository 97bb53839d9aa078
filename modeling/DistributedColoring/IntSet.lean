import DistributedColoring.PackedArray
import DistributedColoring.SortedArray
import Mathlib.Data.Finset.Dedup

set_option autoImplicit false

/- intset.c: a set of integers in one block of memory. The integers ascend and all take the
same number of bytes, as many as the widest has needed so far. -/
namespace KeyDB

/-- The `INTSET_ENC_` values, which are ordered by their sizes. -/
inductive Encoding where
  | int16
  | int32
  | int64
deriving DecidableEq

/-- `sizeof` -/
def Encoding.size : Encoding → ℕ
  | .int16 => 2
  | .int32 => 4
  | .int64 => 8

def intsetValueEncoding (v : ℤ) : Encoding :=
  if v < -2 ^ 31 ∨ 2 ^ 31 - 1 < v then .int64
  else if v < -2 ^ 15 ∨ 2 ^ 15 - 1 < v then .int32
  else .int16

structure IntSet where
  encoding : Encoding
  length : ℕ
  contents : List UInt8

namespace IntSet

def getEncoded (is : IntSet) (pos : ℕ) (enc : Encoding) : ℤ :=
  PackedArray.get enc.size is.contents pos

def get (is : IntSet) (pos : ℕ) : ℤ := is.getEncoded pos is.encoding

def set (is : IntSet) (pos : ℕ) (value : ℤ) : IntSet :=
  { is with contents := PackedArray.set is.encoding.size is.contents pos value }

def intsetNew : IntSet := ⟨.int16, 0, []⟩

/-- What `zrealloc` adds is not initialised, here it is zero. -/
def intsetResize (is : IntSet) (len : ℕ) : IntSet :=
  let size := len * is.encoding.size
  { is with
    contents := is.contents.take size ++ List.replicate (size - is.contents.length) 0 }

/-- Whether the value is there, and its position or the one where it can be inserted. The
loop of the search has `max + 1` as its bound. -/
def intsetSearch (is : IntSet) (value : ℤ) : Bool × ℕ :=
  if is.length = 0 then (false, 0)
  else if is.get (is.length - 1) < value then (false, is.length)
  else if value < is.get 0 then (false, 0)
  else SortedArray.bisect is.get value 0 is.length

def intsetUpgradeAndAdd (is : IntSet) (value : ℤ) : IntSet :=
  let curenc := is.encoding
  let prepend := if value < 0 then 1 else 0
  let is := intsetResize { is with encoding := intsetValueEncoding value } (is.length + 1)
  let is := { is with
    contents := PackedArray.widen curenc.size is.encoding.size prepend is.length is.contents }
  let is := if value < 0 then is.set 0 value else is.set is.length value
  { is with length := is.length + 1 }

/-- The number of bytes that `memmove` gets is a `uint32_t`. -/
def intsetMoveTail (is : IntSet) (source target : ℕ) : IntSet :=
  let bytes := (is.length - source) * is.encoding.size % 2 ^ 32
  { is with
    contents :=
      ByteMemory.write is.contents (target * is.encoding.size)
        (ByteMemory.read is.contents (source * is.encoding.size) bytes) }

/-- The set and `success`. -/
def intsetAdd (is : IntSet) (value : ℤ) : IntSet × Bool :=
  if is.encoding.size < (intsetValueEncoding value).size then
    (is.intsetUpgradeAndAdd value, true)
  else
    let (found, pos) := is.intsetSearch value
    if found then (is, false)
    else
      let is := is.intsetResize (is.length + 1)
      let is := if pos < is.length then is.intsetMoveTail pos (pos + 1) else is
      let is := is.set pos value
      ({ is with length := is.length + 1 }, true)

def intsetRemove (is : IntSet) (value : ℤ) : IntSet × Bool :=
  let (found, pos) := is.intsetSearch value
  if (intsetValueEncoding value).size ≤ is.encoding.size ∧ found then
    let len := is.length
    let is := if pos < len - 1 then is.intsetMoveTail (pos + 1) pos else is
    let is := is.intsetResize (len - 1)
    ({ is with length := len - 1 }, true)
  else (is, false)

def intsetFind (is : IntSet) (value : ℤ) : Bool :=
  decide ((intsetValueEncoding value).size ≤ is.encoding.size) && (is.intsetSearch value).1

/-- The integers ascend and fill the block. -/
structure Valid (is : IntSet) : Prop where
  fits : is.contents.length = is.length * is.encoding.size
  ascending : SortedArray.Ascending is.get is.length

/-- So few values that the number of bytes of a tail does not wrap around, whatever the
encoding. -/
def Short (is : IntSet) : Prop := is.length < 2 ^ 29

/-- The integers in the set, in order. -/
def values (is : IntSet) : List ℤ := SortedArray.elements is.get is.length

section Encoding

variable {enc : Encoding} {v : ℤ}

/-- An encoding can hold the values that need no larger one. -/
theorem inRange_iff (low : -2 ^ 63 ≤ v) (high : v < 2 ^ 63) :
    PackedArray.InRange enc.size v ↔ (intsetValueEncoding v).size ≤ enc.size := by
  unfold PackedArray.InRange intsetValueEncoding
  split
  · cases enc <;> simp only [Encoding.size] <;> omega
  · split
    · cases enc <;> simp only [Encoding.size] <;> omega
    · cases enc <;> simp only [Encoding.size] <;> omega

end Encoding

variable {is : IntSet} {v : ℤ}

theorem cell_inside (fits : is.contents.length = is.length * is.encoding.size) {i : ℕ}
    (inside : i < is.length) : (i + 1) * is.encoding.size ≤ is.contents.length := by
  rw [fits]
  exact Nat.mul_le_mul_right _ inside

section Resize

variable (is : IntSet) (len : ℕ)

theorem length_resize : (is.intsetResize len).contents.length = len * is.encoding.size := by
  show (is.contents.take _ ++ List.replicate _ 0).length = _
  rw [List.length_append, List.length_take, List.length_replicate]
  omega

/-- The cells that are still there keep their bytes, whatever their width. -/
theorem get_resize {w i : ℕ} (still : (i + 1) * w ≤ len * is.encoding.size)
    (inside : (i + 1) * w ≤ is.contents.length) :
    PackedArray.get w (is.intsetResize len).contents i = PackedArray.get w is.contents i := by
  have length := is.length_resize len
  rw [Nat.succ_mul] at still inside
  unfold PackedArray.get
  congr 1
  refine ByteMemory.read_eq_read (by omega) inside fun k below => ?_
  show (is.contents.take _ ++ List.replicate _ 0)[_]? = _
  rw [List.getElem?_append_left (by rw [List.length_take]; omega),
    List.getElem?_take_of_lt (by omega)]

end Resize

theorem Valid.inRange (valid : is.Valid) {i : ℕ} (inside : i < is.length) :
    PackedArray.InRange is.encoding.size (is.get i) :=
  PackedArray.inRange_get (cell_inside valid.fits inside)

theorem intsetSearch_spec (valid : is.Valid) (v : ℤ) :
    (is.intsetSearch v).1 = true ∧ (is.intsetSearch v).2 < is.length ∧
        is.get (is.intsetSearch v).2 = v ∨
      (is.intsetSearch v).1 = false ∧
        SortedArray.Gap is.get is.length v (is.intsetSearch v).2 := by
  have ascending := valid.ascending
  unfold intsetSearch
  split
  · rename_i empty
    exact .inr ⟨rfl, by omega, fun i absurd => by omega, fun i _ absurd => by omega⟩
  · rename_i some_left
    split
    · rename_i largest
      refine .inr ⟨rfl, Nat.le_refl _, fun i inside => ?_, fun i late absurd => by omega⟩
      rcases Nat.lt_or_eq_of_le (Nat.le_sub_one_of_lt inside) with earlier | rfl
      · exact (ascending i _ earlier (by omega)).trans largest
      · exact largest
    · split
      · rename_i smallest
        refine .inr ⟨rfl, Nat.zero_le _, fun i absurd => by omega, fun i _ inside => ?_⟩
        rcases Nat.eq_zero_or_pos i with rfl | later
        · exact smallest
        · exact smallest.trans (ascending 0 i later inside)
      · exact SortedArray.bisect_spec ascending (Nat.zero_le _) (Nat.le_refl _)
          (fun i absurd => by omega) fun i late absurd => by omega

theorem intsetSearch_iff (valid : is.Valid) (v : ℤ) :
    (is.intsetSearch v).1 = true ↔ v ∈ is.values := by
  rcases intsetSearch_spec valid v with ⟨found, inside, same⟩ | ⟨missed, gap⟩
  · exact ⟨fun _ => SortedArray.mem_elements.mpr ⟨_, inside, same⟩, fun _ => found⟩
  · exact ⟨fun found => absurd (missed.symm.trans found) (by decide),
      fun member => absurd member gap.not_mem⟩

/-- A value that needs a larger encoding is not in the set. -/
theorem Valid.small_of_mem (valid : is.Valid) (member : v ∈ is.values) :
    (intsetValueEncoding v).size ≤ is.encoding.size := by
  obtain ⟨i, inside, rfl⟩ := SortedArray.mem_elements.mp member
  have range := valid.inRange inside
  have wide : PackedArray.InRange 8 (is.get i) := range.mono (by cases is.encoding <;> decide)
  unfold PackedArray.InRange at wide
  exact (inRange_iff (by omega) (by omega)).mp range

theorem intsetFind_iff (valid : is.Valid) (v : ℤ) : is.intsetFind v = true ↔ v ∈ is.values := by
  unfold intsetFind
  rw [Bool.and_eq_true, decide_eq_true_eq, intsetSearch_iff valid]
  exact ⟨fun both => both.2, fun member => ⟨valid.small_of_mem member, member⟩⟩

/-- A set that has come out of another one by filling a gap. -/
theorem valid_of_inserts {is' : IntSet} {p : ℕ} (valid : is.Valid)
    (gap : SortedArray.Gap is.get is.length v p)
    (inserts : SortedArray.Inserts is.get is.length v p is'.get)
    (length : is'.length = is.length + 1)
    (fits : is'.contents.length = is'.length * is'.encoding.size) :
    is'.Valid ∧ (∀ x, x ∈ is'.values ↔ x = v ∨ x ∈ is.values) ∧ v ∉ is.values := by
  refine ⟨⟨fits, ?_⟩, ?_, gap.not_mem⟩
  · rw [length]
    exact inserts.ascending gap valid.ascending
  · intro x
    rw [values, length]
    exact inserts.mem_iff gap.inside

/-- The value lies before or behind all others, since the old encoding cannot hold it. There
the upgrade leaves a cell free. -/
theorem Valid.upgrade_place (valid : is.Valid) (low : -2 ^ 63 ≤ v) (high : v < 2 ^ 63)
    (larger : is.encoding.size < (intsetValueEncoding v).size) :
    ∃ pos shift, (pos = 0 ∧ shift = 1 ∨ pos = is.length ∧ shift = 0) ∧
      SortedArray.Gap is.get is.length v pos ∧
        is.intsetUpgradeAndAdd v =
          ⟨intsetValueEncoding v, is.length + 1, PackedArray.set (intsetValueEncoding v).size
            (PackedArray.widen is.encoding.size (intsetValueEncoding v).size shift is.length
              (intsetResize { is with encoding := intsetValueEncoding v }
                (is.length + 1)).contents) pos v⟩ := by
  have outside : ¬ PackedArray.InRange is.encoding.size v := by
    rw [inRange_iff low high]
    omega
  have ranges : ∀ i, i < is.length → PackedArray.InRange is.encoding.size (is.get i) :=
    fun i inside => valid.inRange inside
  have positive : (0 : ℤ) < 256 ^ is.encoding.size := by positivity
  unfold PackedArray.InRange at outside ranges
  by_cases negative : v < 0
  · refine ⟨0, 1, .inl ⟨rfl, rfl⟩, ⟨Nat.zero_le _, fun i absurd => by omega, ?_⟩, ?_⟩
    · intro i _ inside
      have := ranges i inside
      omega
    · unfold intsetUpgradeAndAdd
      simp only [if_pos negative]
      rfl
  · refine ⟨is.length, 0, .inr ⟨rfl, rfl⟩, ⟨Nat.le_refl _, ?_, fun i late absurd => by omega⟩, ?_⟩
    · intro i inside
      have := ranges i inside
      omega
    · unfold intsetUpgradeAndAdd
      simp only [if_neg negative]
      rfl

theorem intsetUpgradeAndAdd_spec (valid : is.Valid) (low : -2 ^ 63 ≤ v) (high : v < 2 ^ 63)
    (larger : is.encoding.size < (intsetValueEncoding v).size) :
    (is.intsetUpgradeAndAdd v).Valid ∧
      (∀ x, x ∈ (is.intsetUpgradeAndAdd v).values ↔ x = v ∨ x ∈ is.values) ∧
        v ∉ is.values := by
  obtain ⟨pos, shift, place, gap, result⟩ := valid.upgrade_place low high larger
  have range : PackedArray.InRange (intsetValueEncoding v).size v :=
    (inRange_iff low high).mpr (Nat.le_refl _)
  have grown := length_resize { is with encoding := intsetValueEncoding v } (is.length + 1)
  have old : ∀ i, i < is.length → PackedArray.get is.encoding.size
      (intsetResize { is with encoding := intsetValueEncoding v } (is.length + 1)).contents i =
        is.get i := by
    intro i inside
    have cell := cell_inside valid.fits inside
    refine get_resize { is with encoding := intsetValueEncoding v } _ ?_ cell
    calc (i + 1) * is.encoding.size ≤ is.contents.length := cell
      _ = is.length * is.encoding.size := valid.fits
      _ ≤ (is.length + 1) * (intsetValueEncoding v).size :=
        Nat.mul_le_mul (Nat.le_succ _) larger.le
  rw [result]
  generalize (intsetResize { is with encoding := intsetValueEncoding v }
    (is.length + 1)).contents = mem at grown old
  obtain ⟨same, moved, _⟩ := PackedArray.widen_spec shift larger.le is.length mem
    (by rw [grown]; exact Nat.mul_le_mul_right _ (by omega))
  generalize PackedArray.widen is.encoding.size (intsetValueEncoding v).size shift is.length
    mem = wide at same moved
  have cell : ∀ i, i ≤ is.length → (i + 1) * (intsetValueEncoding v).size ≤ wide.length := by
    intro i le
    rw [same, grown]
    exact Nat.mul_le_mul_right _ (Nat.succ_le_succ le)
  have here := cell pos gap.inside
  refine valid_of_inserts valid gap ⟨?_, PackedArray.get_set_self here range, ?_⟩ rfl
    ((PackedArray.length_set here).trans (same.trans grown))
  · intro i before
    have shifted : i + shift = i := by omega
    show PackedArray.get _ _ i = _
    have kept := moved i (by omega)
    rw [shifted] at kept
    rw [PackedArray.get_set_ne here (cell i (by omega)) (by omega), kept, old i (by omega)]
  · intro i behind inside
    have shifted : i + shift = i + 1 := by omega
    show PackedArray.get _ _ (i + 1) = _
    have kept := moved i inside
    rw [shifted] at kept
    rw [PackedArray.get_set_ne here (cell (i + 1) inside) (by omega), kept, old i inside]

/-- The tail of a set that is not too large is moved as a whole. -/
theorem Short.moveTail (short : is.Short) (source target : ℕ) :
    (is.intsetMoveTail source target).contents =
      PackedArray.move is.encoding.size is.contents source target (is.length - source) := by
  have small : (is.length - source) * is.encoding.size < 2 ^ 32 := by
    unfold Short at short
    cases is.encoding <;> simp only [Encoding.size] <;> omega
  simp only [intsetMoveTail, PackedArray.move, Nat.mod_eq_of_lt small]

/-- The tail is moved one cell on if there is one. -/
theorem makeGap_spec (valid : is.Valid) (short : is.Short) {pos : ℕ} (inside : pos ≤ is.length) :
    let grown := is.intsetResize (is.length + 1)
    let moved := if pos < grown.length then grown.intsetMoveTail pos (pos + 1) else grown
    moved.encoding = is.encoding ∧ moved.length = is.length ∧
      moved.contents.length = (is.length + 1) * is.encoding.size ∧
      (∀ i, i < pos → moved.get i = is.get i) ∧
        ∀ i, pos ≤ i → i < is.length → moved.get (i + 1) = is.get i := by
  have size := is.length_resize (is.length + 1)
  have old : ∀ i, i < is.length → (is.intsetResize (is.length + 1)).get i = is.get i := by
    intro i below
    refine is.get_resize _ ?_ (cell_inside valid.fits below)
    exact Nat.mul_le_mul_right _ (by omega)
  have cell : ∀ i, i ≤ is.length → (i + 1) * is.encoding.size ≤
      (is.intsetResize (is.length + 1)).contents.length := by
    intro i le
    rw [size]
    exact Nat.mul_le_mul_right _ (Nat.succ_le_succ le)
  simp only
  split
  · rename_i some_left
    have tail : (pos + (is.length - pos)) * is.encoding.size ≤
        (is.intsetResize (is.length + 1)).contents.length := by
      rw [size]
      exact Nat.mul_le_mul_right _ (by omega)
    have room : (pos + 1 + (is.length - pos)) * is.encoding.size ≤
        (is.intsetResize (is.length + 1)).contents.length := by
      rw [size]
      exact Nat.mul_le_mul_right _ (by omega)
    have grown : (is.intsetResize (is.length + 1)).Short := short
    have whole := grown.moveTail pos (pos + 1)
    refine ⟨rfl, rfl, ?_, ?_, ?_⟩
    · rw [whole]
      exact (PackedArray.length_move tail room).trans size
    · intro i before
      rw [get, getEncoded, whole]
      have kept := PackedArray.get_move_outside tail room (cell i (by omega)) (.inl (by omega))
      exact kept.trans (old i (by omega))
    · intro i behind below
      have place : pos + 1 + (i - pos) = i + 1 := by omega
      have origin : pos + (i - pos) = i := by omega
      have moved := PackedArray.get_move_inside tail room (i := i - pos) (by omega)
      rw [place, origin] at moved
      rw [get, getEncoded, whole]
      exact moved.trans (old i below)
  · rename_i none_left
    have last : ¬ pos < is.length := none_left
    exact ⟨rfl, rfl, size, fun i before => old i (by omega), fun i behind below => by omega⟩

theorem insertAt_spec (valid : is.Valid) (short : is.Short)
    (range : PackedArray.InRange is.encoding.size v) {pos : ℕ}
    (gap : SortedArray.Gap is.get is.length v pos) :
    let grown := is.intsetResize (is.length + 1)
    let moved := if pos < grown.length then grown.intsetMoveTail pos (pos + 1) else grown
    let placed := { moved.set pos v with length := (moved.set pos v).length + 1 }
    placed.Valid ∧ (∀ x, x ∈ placed.values ↔ x = v ∨ x ∈ is.values) ∧ v ∉ is.values := by
  obtain ⟨encoding, length, size, before, behind⟩ := makeGap_spec valid short gap.inside
  simp only at encoding length size before behind ⊢
  generalize (if pos < (is.intsetResize (is.length + 1)).length then
    (is.intsetResize (is.length + 1)).intsetMoveTail pos (pos + 1)
      else is.intsetResize (is.length + 1)) = moved at encoding length size before behind ⊢
  have cell : ∀ i, i ≤ is.length → (i + 1) * moved.encoding.size ≤ moved.contents.length := by
    intro i le
    rw [size, encoding]
    exact Nat.mul_le_mul_right _ (Nat.succ_le_succ le)
  have here := cell pos gap.inside
  refine valid_of_inserts valid gap ⟨?_, ?_, ?_⟩ (congrArg (· + 1) length) ?_
  · intro i early
    have inside := gap.inside
    have kept := PackedArray.get_set_ne (v := v) here (cell i (by omega)) (by omega)
    exact kept.trans (before i early)
  · exact PackedArray.get_set_self here (encoding ▸ range)
  · intro i late below
    have kept := PackedArray.get_set_ne (v := v) here (cell (i + 1) below) (by omega)
    exact kept.trans (behind i late below)
  · show (PackedArray.set _ _ _ _).length = (moved.length + 1) * moved.encoding.size
    rw [PackedArray.length_set here, size, length, encoding]

/-- Adding keeps the order, adds the value and tells whether it was new. -/
theorem intsetAdd_spec (valid : is.Valid) (short : is.Short) (low : -2 ^ 63 ≤ v)
    (high : v < 2 ^ 63) :
    (is.intsetAdd v).1.Valid ∧
      (∀ x, x ∈ (is.intsetAdd v).1.values ↔ x = v ∨ x ∈ is.values) ∧
        ((is.intsetAdd v).2 = true ↔ v ∉ is.values) := by
  unfold intsetAdd
  split
  · rename_i larger
    obtain ⟨kept, members, new⟩ := intsetUpgradeAndAdd_spec valid low high larger
    exact ⟨kept, members, fun _ => new, fun _ => rfl⟩
  · rename_i small
    have range : PackedArray.InRange is.encoding.size v :=
      (inRange_iff low high).mpr (Nat.not_lt.mp small)
    have search := intsetSearch_spec valid v
    have iff := intsetSearch_iff valid v
    cases result : is.intsetSearch v with
    | mk found pos =>
        rw [result] at search iff
        rcases search with ⟨yes, inside, same⟩ | ⟨no, gap⟩
        · simp only at yes iff
          subst yes
          have member := iff.mp rfl
          simp only [↓reduceIte]
          refine ⟨valid, fun x => ⟨.inr, ?_⟩, (fun absurd => by cases absurd),
            fun missing => absurd member missing⟩
          rintro (rfl | old)
          · exact member
          · exact old
        · simp only at no gap
          subst no
          simp only [Bool.false_eq_true, ↓reduceIte]
          obtain ⟨kept, members, new⟩ := insertAt_spec valid short range gap
          exact ⟨kept, members, fun _ => new, fun _ => trivial⟩

/-- With `2 ^ 29` values of eight bytes the number of bytes is zero and nothing is moved: a
value below all others is written over the least one. -/
theorem intsetAdd_overwrites (valid : is.Valid) (full : is.length = 2 ^ 29)
    (wide : is.encoding = .int64) (low : -2 ^ 63 ≤ v) (high : v < 2 ^ 63) (least : v < is.get 0) :
    (is.intsetAdd v).2 = true ∧ (is.intsetAdd v).1.length = is.length + 1 ∧
      (is.intsetAdd v).1.get 0 = v ∧
        ∀ i, 0 < i → i < is.length → (is.intsetAdd v).1.get i = is.get i := by
  have range : PackedArray.InRange is.encoding.size v := by
    rw [inRange_iff low high, wide]
    cases intsetValueEncoding v <;> decide
  have small : ¬ is.encoding.size < (intsetValueEncoding v).size :=
    Nat.not_lt.mpr ((inRange_iff low high).mp range)
  have search : is.intsetSearch v = (false, 0) := by
    have last : ¬ is.get (is.length - 1) < v := by
      have := valid.ascending 0 (is.length - 1) (by omega) (by omega)
      omega
    rw [intsetSearch, if_neg (by omega), if_neg last, if_pos least]
  have size := is.length_resize (is.length + 1)
  -- The count of bytes wraps around to zero.
  have still : ((is.intsetResize (is.length + 1)).intsetMoveTail 0 1).contents =
      (is.intsetResize (is.length + 1)).contents := by
    have none : (is.length - 0) * is.encoding.size % 2 ^ 32 = 0 := by
      rw [full, wide]
      decide
    show ByteMemory.write _ _ (ByteMemory.read _ _ ((is.length - 0) * is.encoding.size % _)) = _
    rw [none, ByteMemory.read_zero, ByteMemory.write_nil]
  have cell : ∀ i, i ≤ is.length → (i + 1) * is.encoding.size ≤
      (is.intsetResize (is.length + 1)).contents.length := by
    intro i le
    rw [size]
    exact Nat.mul_le_mul_right _ (Nat.succ_le_succ le)
  have result : is.intsetAdd v = (⟨is.encoding, is.length + 1, PackedArray.set is.encoding.size
      (is.intsetResize (is.length + 1)).contents 0 v⟩, true) := by
    have some_left : 0 < (is.intsetResize (is.length + 1)).length := by
      show 0 < is.length
      omega
    rw [intsetAdd, if_neg small, search]
    simp only [Bool.false_eq_true, ↓reduceIte, if_pos some_left, set, still]
    rfl
  rw [result]
  refine ⟨rfl, rfl, PackedArray.get_set_self (cell 0 (Nat.zero_le _)) range, ?_⟩
  intro i positive inside
  have kept := PackedArray.get_set_ne (v := v) (cell 0 (Nat.zero_le _)) (cell i inside.le)
    (by omega)
  refine kept.trans (is.get_resize _ ?_ (cell_inside valid.fits inside))
  exact Nat.mul_le_mul_right _ (by omega)

/-- The tail is moved over the cell, and the block loses its last one. -/
theorem closeGap_spec (valid : is.Valid) (short : is.Short) {pos : ℕ} (inside : pos < is.length) :
    let moved := if pos < is.length - 1 then is.intsetMoveTail (pos + 1) pos else is
    let shrunk := moved.intsetResize (is.length - 1)
    let left := { shrunk with length := is.length - 1 }
    left.contents.length = left.length * left.encoding.size ∧
      SortedArray.Deletes is.get is.length pos left.get := by
  have old : ∀ i, i < is.length → (i + 1) * is.encoding.size ≤ is.contents.length :=
    fun i below => cell_inside valid.fits below
  have still : ∀ i, i < is.length - 1 →
      (i + 1) * is.encoding.size ≤ (is.length - 1) * is.encoding.size :=
    fun i below => Nat.mul_le_mul_right _ below
  simp only
  split
  · rename_i some_left
    have tail : (pos + 1 + (is.length - (pos + 1))) * is.encoding.size ≤ is.contents.length := by
      rw [valid.fits]
      exact Nat.mul_le_mul_right _ (by omega)
    have room : (pos + (is.length - (pos + 1))) * is.encoding.size ≤ is.contents.length := by
      rw [valid.fits]
      exact Nat.mul_le_mul_right _ (by omega)
    have whole := short.moveTail (pos + 1) pos
    have length := PackedArray.length_move tail room
    have kept : ∀ i, i < is.length - 1 →
        ((is.intsetMoveTail (pos + 1) pos).intsetResize (is.length - 1)).get i =
          PackedArray.get is.encoding.size (PackedArray.move is.encoding.size is.contents (pos + 1)
            pos (is.length - (pos + 1))) i := by
      intro i below
      rw [← whole]
      refine get_resize (is.intsetMoveTail (pos + 1) pos) _ (still i below) ?_
      rw [whole]
      exact (old i (by omega)).trans length.ge
    refine ⟨length_resize _ _, ?_, ?_⟩
    · intro i before
      have same := PackedArray.get_move_outside tail room (old i (by omega)) (.inl before)
      exact (kept i (by omega)).trans same
    · intro i behind below
      have place : pos + (i - pos) = i := by omega
      have origin : pos + 1 + (i - pos) = i + 1 := by omega
      have moved := PackedArray.get_move_inside tail room (i := i - pos) (by omega)
      rw [place, origin] at moved
      exact (kept i (by omega)).trans moved
  · rename_i none_left
    refine ⟨length_resize _ _, ?_, fun i behind below => by omega⟩
    intro i before
    exact is.get_resize _ (still i (by omega)) (old i (by omega))

/-- Removing keeps the order, takes the value out and tells whether it was there. -/
theorem intsetRemove_spec (valid : is.Valid) (short : is.Short) (v : ℤ) :
    (is.intsetRemove v).1.Valid ∧
      (∀ x, x ∈ (is.intsetRemove v).1.values ↔ x ≠ v ∧ x ∈ is.values) ∧
        ((is.intsetRemove v).2 = true ↔ v ∈ is.values) := by
  have search := intsetSearch_spec valid v
  have iff := intsetSearch_iff valid v
  unfold intsetRemove
  cases result : is.intsetSearch v with
  | mk found pos =>
      rw [result] at search iff
      simp only at search iff ⊢
      by_cases member : v ∈ is.values
      · have yes := iff.mpr member
        subst yes
        rcases search with ⟨_, inside, same⟩ | ⟨no, _⟩
        · rw [if_pos ⟨valid.small_of_mem member, rfl⟩]
          obtain ⟨fits, deletes⟩ := closeGap_spec valid short inside
          refine ⟨⟨fits, deletes.ascending valid.ascending⟩, fun x => ?_, fun _ => member,
            fun _ => rfl⟩
          rw [← same]
          exact deletes.mem_iff valid.ascending inside
        · cases no
      · have no : ¬ found = true := fun yes => member (iff.mp yes)
        rw [if_neg fun both => no both.2]
        refine ⟨valid, fun x => ⟨fun old => ⟨?_, old⟩, fun both => both.2⟩,
          (fun absurd => by cases absurd), fun there => absurd there member⟩
        rintro rfl
        exact member old

theorem new_valid : intsetNew.Valid := ⟨rfl, fun _ _ _ absurd => by cases absurd⟩

theorem new_short : intsetNew.Short := Nat.two_pow_pos 29

end IntSet

end KeyDB

import DistributedColoring.IntSet
import DistributedColoring.LongNumbers
import Mathlib.Algebra.Order.BigOperators.Group.Finset
import Mathlib.Data.Finset.Image

set_option autoImplicit false

/- t_set.cpp: sets of strings. A set of integers is kept in an intset, any other one in a hash
table; a set is converted when a string arrives that is no integer or when it grows too large.
A failed assertion is `none`. -/
namespace KeyDB

open CText

/-- A set object with its encoding. The keys of the hash table are a finite set. -/
inductive SetObj where
  | intset (is : IntSet)
  | ht (keys : Finset Text)

namespace SetObj

def setTypeCreate (value : Text) : SetObj :=
  if (string2ll value).isSome then .intset .intsetNew else .ht ∅

/-- `dictAdd` fails if the key is there. -/
def dictAdd (d : Finset Text) (key : Text) : Option (Finset Text) :=
  if key ∈ d then none else some (insert key d)

/-- The loop of `setTypeConvert`, from position `ii` of the iterator on. -/
def convertFrom (is : IntSet) (ii : ℕ) (d : Finset Text) : Option (Finset Text) :=
  if ii < is.length then
    (dictAdd d (sdsll2str (is.get ii))).bind fun d => convertFrom is (ii + 1) d
  else some d
termination_by is.length - ii

/-- `setTypeConvert` to a hash table. -/
def setTypeConvert : SetObj → Option (Finset Text)
  | .intset is => convertFrom is 0 ∅
  | .ht _ => none

/-- The set and the result; `maxEntries` is `set_max_intset_entries`. -/
def setTypeAdd (maxEntries : ℕ) (subject : SetObj) (value : Text) : Option (SetObj × Bool) :=
  match subject with
  | .ht keys =>
      match dictAdd keys value with
      | some keys => some (.ht keys, true)
      | none => some (.ht keys, false)
  | .intset is =>
      match string2ll value with
      | some llval =>
          let (is, success) := is.intsetAdd llval
          if success then
            if min maxEntries (2 ^ 30) < is.length then
              (setTypeConvert (.intset is)).map fun d => (.ht d, true)
            else some (.intset is, true)
          else some (.intset is, false)
      | none =>
          (setTypeConvert (.intset is)).bind fun d =>
            (dictAdd d value).map fun d => (.ht d, true)

def setTypeRemove (setobj : SetObj) (value : Text) : SetObj × Bool :=
  match setobj with
  | .ht keys => if value ∈ keys then (.ht (keys.erase value), true) else (.ht keys, false)
  | .intset is =>
      match string2ll value with
      | some llval =>
          let (is, success) := is.intsetRemove llval
          (.intset is, success)
      | none => (.intset is, false)

def setTypeIsMember (subject : SetObj) (value : Text) : Bool :=
  match subject with
  | .ht keys => decide (value ∈ keys)
  | .intset is =>
      match string2ll value with
      | some llval => is.intsetFind llval
      | none => false

def setTypeSize : SetObj → ℕ
  | .ht keys => keys.card
  | .intset is => is.length

/-- The strings in the set. -/
def members : SetObj → Finset Text
  | .ht keys => keys
  | .intset is => (is.values.map decimal).toFinset

/-- An intset is in order, and small enough for `intsetMoveTail`. -/
def Valid : SetObj → Prop
  | .ht _ => True
  | .intset is => is.Valid ∧ is.Short

variable {is : IntSet} {value : Text}

theorem mem_intset : value ∈ (SetObj.intset is).members ↔ ∃ v ∈ is.values, decimal v = value := by
  rw [members, List.mem_toFinset, List.mem_map]

theorem decimal_mem_intset {v : ℤ} : decimal v ∈ (SetObj.intset is).members ↔ v ∈ is.values := by
  rw [mem_intset]
  constructor
  · rintro ⟨w, member, same⟩
    exact decimal_injective same ▸ member
  · exact fun member => ⟨v, member, rfl⟩

/-- The integers of an intset are `long long`. -/
theorem inLongLong_of_mem (valid : is.Valid) {v : ℤ} (member : v ∈ is.values) : InLongLong v := by
  obtain ⟨i, inside, rfl⟩ := SortedArray.mem_elements.mp member
  have eight : is.encoding.size ≤ 8 := by cases is.encoding <;> decide
  have range := (valid.inRange inside).mono eight
  unfold PackedArray.InRange at range
  exact ⟨by omega, by omega⟩

/-- A string is in an intset if it is written as an integer that is there. -/
theorem mem_intset_iff (valid : is.Valid) :
    value ∈ (SetObj.intset is).members ↔ ∃ v, string2ll value = some v ∧ v ∈ is.values := by
  rw [mem_intset]
  constructor
  · rintro ⟨v, member, rfl⟩
    exact ⟨v, string2ll_eq_some.mpr ⟨inLongLong_of_mem valid member, rfl⟩, member⟩
  · rintro ⟨v, text, member⟩
    exact ⟨v, member, (string2ll_eq_some.mp text).2.symm⟩

theorem notMem_intset (valid : is.Valid) (text : string2ll value = none) :
    value ∉ (SetObj.intset is).members := by
  intro member
  obtain ⟨v, found, _⟩ := (mem_intset_iff valid).mp member
  exact absurd (text.symm.trans found) (by simp)

theorem nodup_values (valid : is.Valid) : (is.values.map decimal).Nodup :=
  List.Nodup.map decimal_injective (valid.ascending.pairwise.imp ne_of_lt)

theorem length_eq_card (valid : is.Valid) : is.length = (SetObj.intset is).members.card := by
  rw [members, List.toFinset_card_of_nodup (nodup_values valid), List.length_map]
  exact (SortedArray.length_elements is.get is.length).symm

theorem size_eq_card {s : SetObj} (valid : s.Valid) : s.setTypeSize = s.members.card := by
  cases s with
  | ht keys => rfl
  | intset is => exact length_eq_card valid.1

/-- An intset whose strings come from a short one is short. -/
theorem short_of_subset {is' : IntSet} (valid : is.Valid) (short : is.Short) (kept : is'.Valid)
    (subset : (SetObj.intset is').members ⊆ (SetObj.intset is).members) : is'.Short := by
  have fewer := Finset.card_le_card subset
  rw [← length_eq_card kept, ← length_eq_card valid] at fewer
  exact fewer.trans_lt short

/-- The iterator has put the first integers into the table, and none of them twice. -/
theorem convertFrom_spec (valid : is.Valid) (ii : ℕ) (d : Finset Text)
    (done : ∀ x, x ∈ d ↔ ∃ i, i < ii ∧ decimal (is.get i) = x) (bound : ii ≤ is.length) :
    convertFrom is ii d = some (SetObj.intset is).members := by
  rw [convertFrom]
  split
  · rename_i inside
    have new : decimal (is.get ii) ∉ d := by
      intro member
      obtain ⟨i, before, same⟩ := (done _).mp member
      exact absurd (decimal_injective same) (valid.ascending i ii before inside).ne
    rw [sdsll2str_eq, dictAdd, if_neg new, Option.bind_some]
    refine convertFrom_spec valid (ii + 1) _ (fun x => ?_) inside
    rw [Finset.mem_insert, done]
    constructor
    · rintro (rfl | ⟨i, before, rfl⟩)
      · exact ⟨ii, Nat.lt_succ_self ii, rfl⟩
      · exact ⟨i, Nat.lt_succ_of_lt before, rfl⟩
    · rintro ⟨i, before, rfl⟩
      rcases Nat.lt_succ_iff_lt_or_eq.mp before with earlier | rfl
      · exact .inr ⟨i, earlier, rfl⟩
      · exact .inl rfl
  · rename_i finished
    have all : ii = is.length := by omega
    congr 1
    ext x
    rw [done, mem_intset, all]
    constructor
    · rintro ⟨i, inside, rfl⟩
      exact ⟨is.get i, SortedArray.mem_elements.mpr ⟨i, inside, rfl⟩, rfl⟩
    · rintro ⟨v, member, rfl⟩
      obtain ⟨i, inside, rfl⟩ := SortedArray.mem_elements.mp member
      exact ⟨i, inside, rfl⟩
termination_by is.length - ii

/-- Conversion fails no assertion and keeps the strings. -/
theorem setTypeConvert_intset (valid : is.Valid) :
    setTypeConvert (.intset is) = some (SetObj.intset is).members :=
  convertFrom_spec valid 0 ∅ (fun x => by simp) (Nat.zero_le _)

theorem members_intsetAdd (valid : is.Valid) (short : is.Short) {v : ℤ}
    (text : string2ll value = some v) :
    (is.intsetAdd v).1.Valid ∧
      (SetObj.intset (is.intsetAdd v).1).members = insert value (SetObj.intset is).members ∧
        ((is.intsetAdd v).2 = true ↔ value ∉ (SetObj.intset is).members) := by
  obtain ⟨range, rfl⟩ := string2ll_eq_some.mp text
  obtain ⟨kept, added, new⟩ := IntSet.intsetAdd_spec valid short range.1 range.2
  refine ⟨kept, ?_, ?_⟩
  · ext x
    rw [Finset.mem_insert, mem_intset, mem_intset]
    constructor
    · rintro ⟨w, member, rfl⟩
      rcases (added w).mp member with rfl | old
      · exact .inl rfl
      · exact .inr ⟨w, old, rfl⟩
    · rintro (rfl | ⟨w, old, rfl⟩)
      · exact ⟨v, (added v).mpr (.inl rfl), rfl⟩
      · exact ⟨w, (added w).mpr (.inr old), rfl⟩
  · rw [new, decimal_mem_intset]

/-- `setTypeAdd` inserts the string, fails no assertion and tells whether it was new. A set
that has grown past the limit is converted, so its tail can still be moved if it is not. -/
theorem setTypeAdd_spec {maxEntries : ℕ} (limited : maxEntries < 2 ^ 29) {s : SetObj}
    (valid : s.Valid) (value : Text) :
    ∃ s' : SetObj, s.setTypeAdd maxEntries value = some (s', decide (value ∉ s.members)) ∧
      s'.Valid ∧ s'.members = insert value s.members := by
  cases s with
  | ht keys =>
      unfold setTypeAdd dictAdd
      by_cases there : value ∈ keys
      · refine ⟨.ht keys, ?_, trivial, (Finset.insert_eq_of_mem there).symm⟩
        simp [members, there]
      · refine ⟨.ht (insert value keys), ?_, trivial, rfl⟩
        simp [members, there]
  | intset is =>
      obtain ⟨valid, short⟩ := valid
      unfold setTypeAdd
      cases text : string2ll value with
      | none =>
          have new := notMem_intset valid text
          refine ⟨.ht (insert value (SetObj.intset is).members), ?_, trivial, rfl⟩
          simp only [setTypeConvert_intset valid, Option.bind_some, dictAdd, new, if_false,
            Option.map_some, not_false_eq_true, decide_true]
      | some v =>
          obtain ⟨kept, same, new⟩ := members_intsetAdd valid short text
          simp only
          by_cases there : value ∈ (SetObj.intset is).members
          · have old : ¬ (is.intsetAdd v).2 = true := fun added => new.mp added there
            rw [if_neg old]
            have fewer : (is.intsetAdd v).1.Short := by
              refine short_of_subset valid short kept ?_
              rw [same, Finset.insert_eq_of_mem there]
            refine ⟨.intset (is.intsetAdd v).1, ?_, ⟨kept, fewer⟩, same⟩
            simp only [there, not_true_eq_false, decide_false]
          · rw [if_pos (new.mpr there)]
            split
            · refine ⟨.ht (SetObj.intset (is.intsetAdd v).1).members, ?_, trivial, same⟩
              simp only [setTypeConvert_intset kept, Option.map_some, there, not_false_eq_true,
                decide_true]
            · have fewer : (is.intsetAdd v).1.Short := by
                unfold IntSet.Short
                omega
              refine ⟨.intset (is.intsetAdd v).1, ?_, ⟨kept, fewer⟩, same⟩
              simp only [there, not_false_eq_true, decide_true]

theorem setTypeRemove_spec {s : SetObj} (valid : s.Valid) (value : Text) :
    (s.setTypeRemove value).1.Valid ∧
      (s.setTypeRemove value).1.members = s.members.erase value ∧
        ((s.setTypeRemove value).2 = true ↔ value ∈ s.members) := by
  cases s with
  | ht keys =>
      unfold setTypeRemove
      by_cases there : value ∈ keys
      · simp only [if_pos there]
        exact ⟨trivial, rfl, fun _ => there, fun _ => trivial⟩
      · simp only [if_neg there]
        exact ⟨trivial, (Finset.erase_eq_of_notMem there).symm, (fun absurd => by cases absurd),
          fun member => absurd member there⟩
  | intset is =>
      obtain ⟨valid, short⟩ := valid
      unfold setTypeRemove
      cases text : string2ll value with
      | none =>
          have new := notMem_intset valid text
          exact ⟨⟨valid, short⟩, (Finset.erase_eq_of_notMem new).symm,
            (fun absurd => by cases absurd), fun member => absurd member new⟩
      | some v =>
          obtain ⟨range, rfl⟩ := string2ll_eq_some.mp text
          obtain ⟨kept, left, there⟩ := IntSet.intsetRemove_spec valid short v
          have erased : (SetObj.intset (is.intsetRemove v).1).members =
              (SetObj.intset is).members.erase (decimal v) := by
            ext x
            rw [Finset.mem_erase, mem_intset, mem_intset]
            constructor
            · rintro ⟨w, inside, rfl⟩
              obtain ⟨apart, old⟩ := (left w).mp inside
              exact ⟨fun same => apart (decimal_injective same), w, old, rfl⟩
            · rintro ⟨apart, w, old, rfl⟩
              exact ⟨w, (left w).mpr ⟨fun same => apart (congrArg decimal same), old⟩, rfl⟩
          have fewer : (is.intsetRemove v).1.Short := by
            refine short_of_subset valid short kept ?_
            rw [erased]
            exact Finset.erase_subset _ _
          exact ⟨⟨kept, fewer⟩, erased, there.trans decimal_mem_intset.symm⟩

theorem setTypeIsMember_iff {s : SetObj} (valid : s.Valid) (value : Text) :
    s.setTypeIsMember value = true ↔ value ∈ s.members := by
  cases s with
  | ht keys => exact decide_eq_true_iff
  | intset is =>
      rw [mem_intset_iff valid.1]
      unfold setTypeIsMember
      cases text : string2ll value with
      | none => exact ⟨(fun absurd => by cases absurd), fun ⟨_, found, _⟩ => by cases found⟩
      | some v =>
          simp only [Option.some.injEq, exists_eq_left']
          exact IntSet.intsetFind_iff valid.1 v

theorem setTypeCreate_valid (value : Text) :
    (setTypeCreate value).Valid ∧ (setTypeCreate value).members = ∅ := by
  unfold setTypeCreate
  split
  · exact ⟨⟨IntSet.new_valid, IntSet.new_short⟩, rfl⟩
  · exact ⟨trivial, rfl⟩

end SetObj

end KeyDB

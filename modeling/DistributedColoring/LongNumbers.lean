import DistributedColoring.CText
import Mathlib.Tactic.IntervalCases

set_option autoImplicit false

/- util.c and sds.c: how the server turns a `long long` into text and back. The writers
work with the magnitude as an unsigned 64-bit number; `string2ll` accepts what they write
and nothing else. -/
namespace KeyDB

open CText

/-- The range of `long long`. -/
def InLongLong (value : ℤ) : Prop := -2 ^ 63 ≤ value ∧ value < 2 ^ 63

instance (value : ℤ) : Decidable (InLongLong value) :=
  inferInstanceAs (Decidable (_ ∧ _))

def ullongMax : ℕ := 2 ^ 64 - 1

/-- `LONG_STR_SIZE`: a buffer for the longest number and the NUL. -/
def longStrSize : ℕ := 21

/-- The number of digits of `v`. -/
def digits10 (v : ℕ) : ℕ :=
  if v < 10 then 1
  else if v < 100 then 2
  else if v < 1000 then 3
  else if v < 1000000000000 then
    if v < 100000000 then
      if v < 1000000 then
        if v < 10000 then 4 else 5 + if v ≥ 100000 then 1 else 0
      else 7 + if v ≥ 10000000 then 1 else 0
    else if v < 10000000000 then 9 + if v ≥ 1000000000 then 1 else 0
    else 11 + if v ≥ 100000000000 then 1 else 0
  else 12 + digits10 (v / 1000000000000)

def digits : Text :=
  ("0001020304050607080910111213141516171819" ++
   "2021222324252627282930313233343536373839" ++
   "4041424344454647484950515253545556575859" ++
   "6061626364656667686970717273747576777879" ++
   "8081828384858687888990919293949596979899").toList

def digitAt (i : ℕ) : Char := digits.getD i '\x00'

/-- The loop of `ll2string` and the last one or two digits after it: characters are stored
from `next` downwards. -/
def writeDigits (dst : Text) (next value : ℕ) : Text :=
  if 100 ≤ value then
    let i := value % 100 * 2
    writeDigits ((dst.set next (digitAt (i + 1))).set (next - 1) (digitAt i)) (next - 2)
      (value / 100)
  else if value < 10 then dst.set next (Nat.digitChar value)
  else
    let i := value * 2
    (dst.set next (digitAt (i + 1))).set (next - 1) (digitAt i)
termination_by value

/-- `dst` is the buffer of `dstlen` characters; `none` is the return value 0. -/
def ll2string (dst : Text) (svalue : ℤ) : Option Text :=
  let negative := if svalue < 0 then 1 else 0
  let value := svalue.natAbs
  let length := digits10 value + negative
  if dst.length ≤ length then none
  else
    let written := writeDigits (dst.set length '\x00') (length - 1) value
    some ((if svalue < 0 then written.set 0 '-' else written).take length)

/-- The digits in reverse. -/
def reversedDigits (v : ℕ) : Text :=
  if v / 10 = 0 then [Nat.digitChar (v % 10)]
  else Nat.digitChar (v % 10) :: reversedDigits (v / 10)
termination_by v

def sdsll2str (value : ℤ) : Text :=
  (reversedDigits value.natAbs ++ if value < 0 then ['-'] else []).reverse

/-- The loop of `string2ll`; a character that is no digit is left unread, which fails. -/
def readMore (v : ℕ) : Text → Option ℕ
  | [] => some v
  | c :: rest =>
      if isDigit c then
        if v > ullongMax / 10 then none
        else if v * 10 > ullongMax - (c.toNat - 48) then none
        else readMore (v * 10 + (c.toNat - 48)) rest
      else none

/-- From the first digit on, which is not a zero. -/
def readMagnitude : Text → Option ℕ
  | [] => none
  | c :: rest => if '1' ≤ c ∧ c ≤ '9' then readMore (c.toNat - 48) rest else none

def string2ll (s : Text) : Option ℤ :=
  if s = ['0'] then some 0
  else
    match s with
    | '-' :: p => (readMagnitude p).bind fun v => if v > 2 ^ 63 then none else some (-v)
    | p => (readMagnitude p).bind fun v => if v > 2 ^ 63 - 1 then none else some v

section Digits

theorem digitChar_of_isDigit {c : Char} (digit : isDigit c = true) :
    Nat.digitChar (c.toNat - 48) = c := by
  simp only [isDigit, Bool.and_eq_true, decide_eq_true_eq] at digit
  have cases : ∀ n, 48 ≤ n → n ≤ 57 → Nat.digitChar (n - 48) = Char.ofNat n := by
    intro n low high
    interval_cases n <;> rfl
  rw [cases c.toNat digit.1 digit.2, Char.ofNat_toNat]

theorem digitAt_pair {i : ℕ} (small : i < 100) :
    digitAt (i * 2) = Nat.digitChar (i / 10) ∧ digitAt (i * 2 + 1) = Nat.digitChar (i % 10) := by
  have table : ∀ i < 100, digitAt (i * 2) = Nat.digitChar (i / 10) ∧
      digitAt (i * 2 + 1) = Nat.digitChar (i % 10) := by
    decide +kernel
  exact table i small

/-- Two digits come off the end. -/
theorem toDigits_hundred {v : ℕ} (large : 100 ≤ v) :
    Nat.toDigits 10 v = Nat.toDigits 10 (v / 100) ++
      [digitAt (v % 100 * 2), digitAt (v % 100 * 2 + 1)] := by
  obtain ⟨tens, units⟩ := digitAt_pair (Nat.mod_lt v (show 0 < 100 by decide))
  rw [tens, units, show v % 100 / 10 = v / 10 % 10 by omega,
    show v % 100 % 10 = v % 10 by omega, Nat.toDigits_eq_if (n := v) (by decide), if_neg (by omega),
    Nat.toDigits_eq_if (n := v / 10) (by decide), if_neg (by omega), Nat.div_div_eq_div_mul,
    List.append_assoc]
  rfl

theorem length_toDigits_pos (v : ℕ) : 0 < (Nat.toDigits 10 v).length :=
  List.length_pos_iff.mpr Nat.toDigits_ne_nil

theorem length_toDigits_eq {v k : ℕ} (low : 10 ^ k ≤ v) (high : v < 10 ^ (k + 1)) :
    (Nat.toDigits 10 v).length = k + 1 := by
  have upper : (Nat.toDigits 10 v).length ≤ k + 1 :=
    (Nat.length_toDigits_le_iff (by decide) (by omega)).mpr high
  have some_digit := length_toDigits_pos v
  rcases Nat.eq_zero_or_pos k with rfl | positive
  · omega
  · have lower : ¬ (Nat.toDigits 10 v).length ≤ k := by
      rw [Nat.length_toDigits_le_iff (by decide) positive]
      omega
    omega

/-- Twelve digits at a time. -/
theorem length_toDigits_trillion {v : ℕ} (large : 10 ^ 12 ≤ v) :
    (Nat.toDigits 10 v).length = 12 + (Nat.toDigits 10 (v / 10 ^ 12)).length := by
  have positive := length_toDigits_pos (v / 10 ^ 12)
  obtain ⟨k, same⟩ := Nat.exists_eq_succ_of_ne_zero (Nat.ne_of_gt positive)
  rw [Nat.succ_eq_add_one] at same
  have high : v / 10 ^ 12 < 10 ^ (k + 1) :=
    (Nat.length_toDigits_le_iff (by decide) (by omega)).mp same.le
  have low : 10 ^ k ≤ v / 10 ^ 12 := by
    rcases Nat.eq_zero_or_pos k with rfl | more
    · exact Nat.div_pos large (by decide)
    · by_contra less
      have short : (Nat.toDigits 10 (v / 10 ^ 12)).length ≤ k :=
        (Nat.length_toDigits_le_iff (by decide) more).mpr (by omega)
      omega
  rw [same, show 12 + (k + 1) = (k + 12) + 1 by omega]
  apply length_toDigits_eq
  · rw [pow_add]
    exact (Nat.le_div_iff_mul_le (by decide)).mp low
  · rw [show k + 12 + 1 = (k + 1) + 12 by omega, pow_add]
    exact (Nat.div_lt_iff_lt_mul (by decide)).mp high

theorem digits10_eq (v : ℕ) : digits10 v = (Nat.toDigits 10 v).length := by
  induction v using Nat.strongRecOn with
  | ind v ih =>
      have between : ∀ k, 10 ^ k ≤ v → v < 10 ^ (k + 1) →
          k + 1 = (Nat.toDigits 10 v).length := fun k low high => (length_toDigits_eq low high).symm
      unfold digits10
      split_ifs
      · rw [Nat.toDigits_of_lt_base ‹v < 10›]
        rfl
      · exact between 1 (by omega) (by omega)
      · exact between 2 (by omega) (by omega)
      · exact between 3 (by omega) (by omega)
      · exact between 5 (by omega) (by omega)
      · exact between 4 (by omega) (by omega)
      · exact between 7 (by omega) (by omega)
      · exact between 6 (by omega) (by omega)
      · exact between 9 (by omega) (by omega)
      · exact between 8 (by omega) (by omega)
      · exact between 11 (by omega) (by omega)
      · exact between 10 (by omega) (by omega)
      · rw [ih _ (by omega)]
        exact (length_toDigits_trillion (by omega)).symm

end Digits

section Writers

/-- Two characters are stored from the second one down. -/
theorem set_pair (front : Text) (x y a b : Char) (back : Text) :
    ((front ++ x :: y :: back).set (front.length + 1) b).set front.length a =
      front ++ a :: b :: back := by
  simp

theorem exists_concat_pair {space : Text} {n : ℕ} (length : space.length = n + 2) :
    ∃ rest x y, space = rest ++ [x, y] ∧ rest.length = n := by
  obtain ⟨x, y, last⟩ := List.length_eq_two.mp
    (show (space.drop n).length = 2 by rw [List.length_drop]; omega)
  refine ⟨space.take n, x, y, ?_, by rw [List.length_take]; omega⟩
  rw [← last, List.take_append_drop]

/-- The digits fill the space up to `next`; nothing else is stored. -/
theorem writeDigits_append (value : ℕ) (front : Text) {space : Text} (back : Text)
    (fits : space.length = (Nat.toDigits 10 value).length) :
    writeDigits (front ++ (space ++ back)) (front.length + space.length - 1) value =
      front ++ (Nat.toDigits 10 value ++ back) := by
  induction value using Nat.strongRecOn generalizing space back with
  | ind value ih =>
      unfold writeDigits
      split
      · rename_i large
        rw [toDigits_hundred large, List.length_append] at fits
        obtain ⟨rest, x, y, rfl, length⟩ := exists_concat_pair fits
        have next : front.length + (rest ++ [x, y]).length - 1 = (front ++ rest).length + 1 := by
          simp
          omega
        have positive := length_toDigits_pos (value / 100)
        have step := ih (value / 100) (by omega) (digitAt (value % 100 * 2) ::
          digitAt (value % 100 * 2 + 1) :: back) length
        have split : front ++ (rest ++ [x, y] ++ back) = (front ++ rest) ++ x :: y :: back := by
          simp
        dsimp only
        rw [next, split, Nat.add_sub_cancel, set_pair, toDigits_hundred large]
        have index : (front ++ rest).length + 1 - 2 = front.length + rest.length - 1 := by
          rw [List.length_append]
          omega
        rw [index, List.append_assoc, step]
        simp
      · rename_i small
        split
        · rename_i one
          rw [Nat.toDigits_of_lt_base one] at fits ⊢
          obtain ⟨x, rfl⟩ := List.length_eq_one_iff.mp fits
          simp
        · rename_i two
          obtain ⟨tens, units⟩ := digitAt_pair (i := value) (by omega)
          have both : Nat.toDigits 10 value = [digitAt (value * 2), digitAt (value * 2 + 1)] := by
            rw [tens, units, Nat.toDigits_eq_if (by decide), if_neg two,
              Nat.toDigits_of_lt_base (by omega)]
            rfl
          rw [both] at fits ⊢
          obtain ⟨x, y, rfl⟩ := List.length_eq_two.mp fits
          exact set_pair front x y _ _ back

theorem length_decimal (value : ℤ) :
    (decimal value).length = digits10 value.natAbs + if value < 0 then 1 else 0 := by
  rw [digits10_eq]
  unfold decimal
  split <;> simp

/-- `ll2string` writes what `%lld` writes, if there is room for it and the NUL. -/
theorem ll2string_eq (dst : Text) (svalue : ℤ) :
    ll2string dst svalue =
      if (decimal svalue).length < dst.length then some (decimal svalue) else none := by
  have length := length_decimal svalue
  unfold ll2string
  dsimp only
  rw [← length]
  by_cases room : (decimal svalue).length < dst.length
  · rw [if_neg (by omega), if_pos room]
    have parts : dst.set (decimal svalue).length '\x00' = dst.take (decimal svalue).length ++
        '\x00' :: dst.drop ((decimal svalue).length + 1) := by
      rw [List.set_eq_take_append_cons_drop, if_pos room]
    have taken : (dst.take (decimal svalue).length).length = (decimal svalue).length := by
      rw [List.length_take]
      omega
    generalize dst.take (decimal svalue).length = space at parts taken
    rw [parts]
    unfold decimal at taken ⊢
    by_cases negative : svalue < 0
    · rw [if_pos negative, List.length_cons] at taken
      rw [if_pos negative, if_pos negative]
      obtain ⟨x, rest, rfl⟩ := List.exists_cons_of_length_eq_add_one taken
      have same : rest.length = (Nat.toDigits 10 svalue.natAbs).length := Nat.succ.inj taken
      have filled := writeDigits_append svalue.natAbs [x] ('\x00' :: dst.drop
        (('-' :: Nat.toDigits 10 svalue.natAbs).length + 1)) same
      rw [List.length_singleton, Nat.add_sub_cancel_left, same] at filled
      rw [List.length_cons, Nat.add_sub_cancel]
      rw [List.length_cons] at filled
      simp only [List.cons_append, List.nil_append] at filled ⊢
      rw [filled]
      simp
    · rw [if_neg negative] at taken
      rw [if_neg negative, if_neg negative]
      have filled := writeDigits_append svalue.natAbs [] ('\x00' :: dst.drop
        ((Nat.toDigits 10 svalue.natAbs).length + 1)) taken
      rw [List.length_nil, Nat.zero_add, taken] at filled
      simp only [List.nil_append] at filled
      rw [filled]
      simp
  · rw [if_pos (by omega), if_neg room]

theorem reversedDigits_eq (v : ℕ) : (reversedDigits v).reverse = Nat.toDigits 10 v := by
  induction v using Nat.strongRecOn with
  | ind v ih =>
      unfold reversedDigits
      rw [Nat.toDigits_eq_if (by decide)]
      split
      · rename_i small
        rw [if_pos (by omega), Nat.mod_eq_of_lt (by omega)]
        rfl
      · rename_i large
        rw [if_neg (by omega), List.reverse_cons, ih _ (by omega)]

theorem sdsll2str_eq (value : ℤ) : sdsll2str value = decimal value := by
  unfold sdsll2str decimal
  split <;> simp [reversedDigits_eq]

end Writers

section Readers

theorem ofDigitChars_ge (s : Text) (v : ℕ) : v ≤ Nat.ofDigitChars 10 s v := by
  induction s generalizing v with
  | nil => exact Nat.le_refl v
  | cons c s ih =>
      rw [Nat.ofDigitChars_cons]
      exact Nat.le_trans (by omega) (ih _)

/-- The loop reads a run of digits to its end, as long as the value fits into 64 bits. -/
theorem readMore_eq_some {v w : ℕ} {s : Text} (fits : v ≤ ullongMax) :
    readMore v s = some w ↔
      (∀ c ∈ s, isDigit c = true) ∧ Nat.ofDigitChars 10 s v = w ∧ w ≤ ullongMax := by
  induction s generalizing v with
  | nil =>
      simp only [readMore, Option.some.injEq, Nat.ofDigitChars_nil]
      constructor
      · rintro rfl
        exact ⟨by simp, rfl, fits⟩
      · exact fun parts => parts.2.1
  | cons c s ih =>
      rw [readMore, Nat.ofDigitChars_cons, List.forall_mem_cons]
      by_cases digit : isDigit c = true
      · have range : 48 ≤ c.toNat ∧ c.toNat ≤ 57 := by
          simpa [isDigit] using digit
        have next : 10 * v + (c.toNat - '0'.toNat) = v * 10 + (c.toNat - 48) := by
          rw [show '0'.toNat = 48 from rfl]
          omega
        rw [if_pos digit, next]
        have grows := ofDigitChars_ge s (v * 10 + (c.toNat - 48))
        unfold ullongMax at *
        split_ifs with first second
        · simp only [false_iff]
          rintro ⟨_, rfl, bound⟩
          omega
        · simp only [false_iff]
          rintro ⟨_, rfl, bound⟩
          omega
        · rw [ih (by omega)]
          simp [digit]
      · simp [digit]

/-- Further digits after a positive number. -/
theorem toDigits_append {v : ℕ} (positive : 0 < v) {s : Text} (all : ∀ c ∈ s, isDigit c = true) :
    Nat.toDigits 10 v ++ s = Nat.toDigits 10 (Nat.ofDigitChars 10 s v) := by
  induction s generalizing v with
  | nil => simp
  | cons c s ih =>
      have digit := all c List.mem_cons_self
      have range : 48 ≤ c.toNat ∧ c.toNat ≤ 57 := by simpa [isDigit] using digit
      have one : Nat.toDigits 10 (c.toNat - 48) = [c] := by
        rw [Nat.toDigits_of_lt_base (by omega), digitChar_of_isDigit digit]
      calc Nat.toDigits 10 v ++ c :: s
        _ = Nat.toDigits 10 v ++ Nat.toDigits 10 (c.toNat - 48) ++ s := by simp [one]
        _ = Nat.toDigits 10 (10 * v + (c.toNat - 48)) ++ s := by
            rw [Nat.toDigits_append_toDigits (by decide) positive (by omega)]
        _ = Nat.toDigits 10 (Nat.ofDigitChars 10 (c :: s) v) := by
            rw [ih (by omega) fun d member => all d (List.mem_cons_of_mem c member),
              Nat.ofDigitChars_cons]
            rfl

theorem nonzero_digit {c : Char} : '1' ≤ c ∧ c ≤ '9' ↔ 49 ≤ c.toNat ∧ c.toNat ≤ 57 := Iff.rfl

/-- A positive number does not start with a zero. -/
theorem exists_toDigits_nonzero {v : ℕ} (positive : 0 < v) :
    ∃ c rest, Nat.toDigits 10 v = c :: rest ∧ '1' ≤ c ∧ c ≤ '9' := by
  induction v using Nat.strongRecOn with
  | ind v ih =>
      rw [Nat.toDigits_eq_if (by decide)]
      split
      · rename_i small
        refine ⟨_, [], rfl, ?_⟩
        interval_cases v <;> decide
      · obtain ⟨c, rest, split, range⟩ := ih (v / 10) (by omega) (by omega)
        exact ⟨c, _, by rw [split, List.cons_append], range⟩

/-- A magnitude is read from the digits of a positive number only. -/
theorem readMagnitude_eq_some {s : Text} {v : ℕ} :
    readMagnitude s = some v ↔ 0 < v ∧ v ≤ ullongMax ∧ s = Nat.toDigits 10 v := by
  constructor
  · intro read
    cases s with
    | nil => cases read
    | cons c rest =>
        rw [readMagnitude] at read
        split at read
        · rename_i nonzero
          obtain ⟨low, high⟩ := nonzero_digit.mp nonzero
          have digit : isDigit c = true := by simp [isDigit]; omega
          obtain ⟨all, value, bound⟩ := (readMore_eq_some (by unfold ullongMax; omega)).mp read
          have grows := ofDigitChars_ge rest (c.toNat - 48)
          refine ⟨by omega, bound, ?_⟩
          rw [← value, ← toDigits_append (by omega) all, Nat.toDigits_of_lt_base (by omega),
            digitChar_of_isDigit digit, List.singleton_append]
        · cases read
  · rintro ⟨positive, bound, rfl⟩
    obtain ⟨c, rest, split, nonzero⟩ := exists_toDigits_nonzero positive
    obtain ⟨low, high⟩ := nonzero_digit.mp nonzero
    have value : Nat.ofDigitChars 10 rest (c.toNat - 48) = v := by
      have read := Nat.ofDigitChars_ten_toDigits (n := v)
      rwa [split, Nat.ofDigitChars_cons, Nat.mul_zero, Nat.zero_add] at read
    have all : ∀ d ∈ rest, isDigit d = true := by
      intro d member
      apply isDigit_of_mem_toDigits (n := v)
      rw [split]
      exact List.mem_cons_of_mem c member
    rw [split, readMagnitude, if_pos nonzero]
    exact (readMore_eq_some (by unfold ullongMax; omega)).mpr ⟨all, value, bound⟩

/-- `string2ll` accepts what the writers write, and nothing else. -/
theorem string2ll_eq_some {s : Text} {value : ℤ} :
    string2ll s = some value ↔ InLongLong value ∧ s = decimal value := by
  unfold string2ll
  split
  · rename_i zero
    have text : s = decimal 0 := zero
    rw [text]
    constructor
    · intro same
      cases same
      exact ⟨by decide, rfl⟩
    · rintro ⟨_, same⟩
      rw [decimal_injective same]
  · rename_i nonzero
    have apart : value = 0 → s ≠ decimal value := by
      rintro rfl same
      exact nonzero same
    split
    · rename_i p
      simp only [Option.bind_eq_some_iff, readMagnitude_eq_some]
      constructor
      · rintro ⟨v, ⟨positive, bound, rfl⟩, result⟩
        split at result
        · cases result
        · cases result
          refine ⟨⟨by omega, by omega⟩, ?_⟩
          simp [decimal, positive]
      · rintro ⟨⟨low, high⟩, same⟩
        unfold decimal at same
        split at same
        · rename_i negative
          refine ⟨value.natAbs, ⟨by omega, by unfold ullongMax; omega, (List.cons.inj same).2⟩, ?_⟩
          rw [if_neg (by omega)]
          congr 1
          omega
        · obtain ⟨c, more, digits, digit⟩ := exists_toDigits_cons value.natAbs
          rw [digits] at same
          cases same
          simp [isDigit] at digit
    · rename_i plain
      simp only [Option.bind_eq_some_iff, readMagnitude_eq_some]
      constructor
      · rintro ⟨v, ⟨positive, bound, rfl⟩, result⟩
        split at result
        · cases result
        · cases result
          refine ⟨⟨by omega, by omega⟩, ?_⟩
          simp [decimal]
      · rintro ⟨⟨low, high⟩, same⟩
        have nonneg : ¬ value < 0 := by
          intro negative
          rw [decimal, if_pos negative] at same
          exact plain _ same
        have positive : value ≠ 0 := fun zero => apart zero same
        rw [decimal, if_neg nonneg] at same
        refine ⟨value.natAbs, ⟨by omega, by unfold ullongMax; omega, same⟩, ?_⟩
        rw [if_neg (by omega)]
        congr 1
        omega

end Readers

theorem length_decimal_lt {value : ℤ} (range : InLongLong value) :
    (decimal value).length < longStrSize := by
  have digits : (Nat.toDigits 10 value.natAbs).length ≤ 19 := by
    rw [Nat.length_toDigits_le_iff (by decide) (by decide)]
    obtain ⟨low, high⟩ := range
    omega
  unfold decimal longStrSize
  split
  · rw [List.length_cons]
    omega
  · omega

/-- In a buffer of `LONG_STR_SIZE` the two writers agree on every `long long`, and
`string2ll` accepts exactly the texts they write, with the number they were written for. -/
theorem long_text_round_trip (dst : Text) (room : longStrSize ≤ dst.length) :
    (∀ value, InLongLong value → ll2string dst value = some (sdsll2str value)) ∧
      ∀ s value, string2ll s = some value ↔
        InLongLong value ∧ ll2string dst value = some s := by
  have written : ∀ value, InLongLong value → ll2string dst value = some (decimal value) := by
    intro value range
    rw [ll2string_eq, if_pos ((length_decimal_lt range).trans_le room)]
  refine ⟨?_, ?_⟩
  · intro value range
    rw [written value range, sdsll2str_eq]
  · intro s value
    rw [string2ll_eq_some]
    refine and_congr_right fun range => ?_
    rw [written value range, Option.some.injEq]
    exact eq_comm

/-- The least `long long` just fits. -/
theorem long_text_round_trip_min :
    ll2string (List.replicate 21 ' ') (-2 ^ 63) = some "-9223372036854775808".toList ∧
      string2ll "-9223372036854775808".toList = some (-2 ^ 63) := by
  obtain ⟨_, inverse⟩ := long_text_round_trip (List.replicate 21 ' ') (by decide)
  have read : string2ll "-9223372036854775808".toList = some (-2 ^ 63) := by decide +kernel
  exact ⟨((inverse _ _).mp read).2, read⟩

end KeyDB

import Mathlib.Algebra.Group.Int.Defs
import Mathlib.Algebra.Group.Nat.Defs
import Mathlib.Data.Int.Basic
import Mathlib.Data.List.Basic

set_option autoImplicit false

/- The parts of the C library that turn text into numbers, numbers into text and
files into lines. Text is a list of characters without the terminating NUL. -/
namespace CText

abbrev Text := List Char

/-- `isspace` in the C locale. -/
def isSpace (c : Char) : Bool :=
  c = ' ' || (9 ≤ c.toNat && c.toNat ≤ 13)

def isDigit (c : Char) : Bool :=
  48 ≤ c.toNat && c.toNat ≤ 57

/-- The longest run of digits at the front, read onto `acc`, and the rest. -/
def readDigits : ℕ → List Char → ℕ × List Char
  | acc, [] => (acc, [])
  | acc, c :: rest =>
      if isDigit c then readDigits (acc * 10 + (c.toNat - 48)) rest else (acc, c :: rest)

/-- An unsigned number needs at least one digit. -/
def scanNat : List Char → Option (ℕ × List Char)
  | [] => none
  | c :: rest => if isDigit c then some (readDigits 0 (c :: rest)) else none

def scanSigned : List Char → Option (ℤ × List Char)
  | '-' :: rest => (scanNat rest).map fun r => (-(r.1 : ℤ), r.2)
  | '+' :: rest => (scanNat rest).map fun r => ((r.1 : ℤ), r.2)
  | rest => (scanNat rest).map fun r => ((r.1 : ℤ), r.2)

/-- Optional blanks, an optional sign and a number: what `%d` and `atoi` accept. -/
def scanInt (text : List Char) : Option (ℤ × List Char) :=
  scanSigned (text.dropWhile isSpace)

/-- The range of `int`. -/
def InInt (value : ℤ) : Prop := -2 ^ 31 ≤ value ∧ value < 2 ^ 31

/-- `strtol` stops at the ends of `long`; the conversion to `int` keeps 32 bits. -/
def toInt (value : ℤ) : ℤ := (max (-2 ^ 63) (min value (2 ^ 63 - 1))).bmod (2 ^ 32)

/-- Text that does not start with a number is zero. -/
def atoi (text : List Char) : ℤ :=
  match scanInt text with
  | some (value, _) => toInt value
  | none => 0

/-- `%d`, and what `sdsfromlonglong` writes. -/
def decimal (value : ℤ) : List Char :=
  if value < 0 then '-' :: Nat.toDigits 10 value.natAbs else Nat.toDigits 10 value.natAbs

/-- The successive contents of a buffer of `size` characters that `fgets` fills until
the end of the file; `line` is what it has read of the current one. -/
def fgetsFrom (size : ℕ) : List Char → List Char → List (List Char)
  | line, [] => if line = [] then [] else [line]
  | line, c :: rest =>
      if c = '\n' ∨ line.length + 2 = size then (line ++ [c]) :: fgetsFrom size [] rest
      else fgetsFrom size (line ++ [c]) rest

def fgetsLines (size : ℕ) (text : List Char) : List (List Char) := fgetsFrom size [] text

theorem toInt_of_inInt {value : ℤ} (range : InInt value) : toInt value = value := by
  obtain ⟨low, high⟩ := range
  have clamped : max (-2 ^ 63) (min value (2 ^ 63 - 1)) = value := by omega
  rw [toInt, clamped, Int.bmod_eq_of_le] <;> omega

theorem inInt_toInt (value : ℤ) : InInt (toInt value) := by
  have low := Int.le_bmod (x := max (-2 ^ 63) (min value (2 ^ 63 - 1))) (m := 2 ^ 32) (by decide)
  have high := Int.bmod_lt (x := max (-2 ^ 63) (min value (2 ^ 63 - 1))) (m := 2 ^ 32) (by decide)
  unfold InInt toInt
  omega

theorem isDigit_of_mem_toDigits {n : ℕ} {c : Char} (member : c ∈ Nat.toDigits 10 n) :
    isDigit c = true :=
  Nat.isDigit_of_mem_toDigits (by decide) (by decide) member

theorem readDigits_append (acc : ℕ) {digits rest : List Char} (all : ∀ c ∈ digits, isDigit c)
    (stop : ∀ c ∈ rest.head?, isDigit c = false) :
    readDigits acc (digits ++ rest) = (Nat.ofDigitChars 10 digits acc, rest) := by
  induction digits generalizing acc with
  | nil =>
      cases rest with
      | nil => rfl
      | cons c rest =>
          have notDigit := stop c rfl
          simp [readDigits, notDigit]
  | cons c digits ih =>
      have digit := all c List.mem_cons_self
      rw [List.cons_append, readDigits, if_pos digit,
        ih _ fun d member => all d (List.mem_cons_of_mem c member), Nat.ofDigitChars_cons,
        Nat.mul_comm]
      rfl

theorem exists_toDigits_cons (n : ℕ) :
    ∃ c more, Nat.toDigits 10 n = c :: more ∧ isDigit c = true := by
  cases digits : Nat.toDigits 10 n with
  | nil => exact absurd digits Nat.toDigits_ne_nil
  | cons c more =>
      refine ⟨c, more, rfl, isDigit_of_mem_toDigits (n := n) ?_⟩
      rw [digits]
      exact List.mem_cons_self

theorem scanNat_toDigits (n : ℕ) {rest : List Char} (stop : ∀ c ∈ rest.head?, isDigit c = false) :
    scanNat (Nat.toDigits 10 n ++ rest) = some (n, rest) := by
  have read := readDigits_append 0 (fun c => isDigit_of_mem_toDigits (n := n)) stop
  rw [Nat.ofDigitChars_ten_toDigits] at read
  obtain ⟨c, more, digits, digit⟩ := exists_toDigits_cons n
  rw [digits, List.cons_append] at read ⊢
  rw [scanNat, if_pos digit, read]

theorem scanInt_of_digit {c : Char} (digit : isDigit c = true) (rest : List Char) :
    scanInt (c :: rest) = (scanNat (c :: rest)).map fun r => ((r.1 : ℤ), r.2) := by
  simp only [isDigit, Bool.and_eq_true, decide_eq_true_eq] at digit
  have notSpace : isSpace c = false := by
    have apart : c ≠ ' ' := by
      rintro rfl
      simp at digit
    simp only [isSpace, apart, decide_false, Bool.false_or, Bool.and_eq_false_iff,
      decide_eq_false_iff_not]
    omega
  rw [scanInt, List.dropWhile_cons_of_neg (by simp [notSpace])]
  unfold scanSigned
  split
  · rename_i head
    cases head
    simp at digit
  · rename_i head
    cases head
    simp at digit
  · rfl

/-- What `%d` writes, `%d` reads. -/
theorem scanInt_decimal (value : ℤ) (rest : List Char)
    (stop : ∀ c ∈ rest.head?, isDigit c = false) :
    scanInt (decimal value ++ rest) = some (value, rest) := by
  have read := scanNat_toDigits value.natAbs stop
  unfold decimal
  split
  · rename_i negative
    have skip : isSpace '-' = false := by decide
    rw [List.cons_append, scanInt, List.dropWhile_cons_of_neg (by simp [skip])]
    simp only [scanSigned, read, Option.map_some, Option.some.injEq, Prod.mk.injEq, and_true]
    omega
  · rename_i positive
    obtain ⟨c, more, digits, digit⟩ := exists_toDigits_cons value.natAbs
    rw [digits, List.cons_append] at read ⊢
    rw [scanInt_of_digit digit, read]
    simp only [Option.map_some, Option.some.injEq, Prod.mk.injEq, and_true]
    omega

theorem atoi_decimal {value : ℤ} (range : InInt value) (rest : List Char)
    (stop : ∀ c ∈ rest.head?, isDigit c = false) : atoi (decimal value ++ rest) = value := by
  rw [atoi, scanInt_decimal value rest stop]
  exact toInt_of_inInt range

theorem decimal_injective : Function.Injective decimal := by
  intro a b same
  have readA := scanInt_decimal a [] (by simp)
  have readB := scanInt_decimal b [] (by simp)
  rw [same, readB] at readA
  exact (congrArg Prod.fst (Option.some.inj readA)).symm

theorem decimal_ne_nil (value : ℤ) : decimal value ≠ [] := by
  unfold decimal
  split
  · exact List.cons_ne_nil _ _
  · exact Nat.toDigits_ne_nil

theorem mem_decimal {value : ℤ} {c : Char} (member : c ∈ decimal value) :
    c = '-' ∨ isDigit c = true := by
  unfold decimal at member
  split at member
  · exact (List.mem_cons.mp member).imp_right isDigit_of_mem_toDigits
  · exact Or.inr (isDigit_of_mem_toDigits member)

/-- A number ends where something else than a digit follows. -/
theorem decimal_append_inj {c : Char} (stop : isDigit c = false) {u v : ℤ}
    {rest rest' : List Char} (same : decimal u ++ c :: rest = decimal v ++ c :: rest') :
    u = v ∧ rest = rest' := by
  have readU := scanInt_decimal u (c :: rest) (by simp [stop])
  have readV := scanInt_decimal v (c :: rest') (by simp [stop])
  rw [same, readV] at readU
  have parts := Option.some.inj readU
  exact ⟨(congrArg Prod.fst parts).symm, (List.cons.inj (congrArg Prod.snd parts)).2.symm⟩

theorem length_decimal_le {value : ℤ} (range : InInt value) : (decimal value).length ≤ 11 := by
  have digits : (Nat.toDigits 10 value.natAbs).length ≤ 10 := by
    rw [Nat.length_toDigits_le_iff (by decide) (by decide)]
    obtain ⟨low, high⟩ := range
    omega
  unfold decimal
  split
  · rw [List.length_cons]
    omega
  · omega

theorem readDigits_newline (acc : ℕ) (text : List Char) :
    readDigits acc (text ++ ['\n']) =
      ((readDigits acc text).1, (readDigits acc text).2 ++ ['\n']) := by
  induction text generalizing acc with
  | nil => rfl
  | cons c text ih =>
      rw [List.cons_append, readDigits, readDigits]
      split
      · exact ih _
      · rfl

theorem scanNat_newline (text : List Char) :
    scanNat (text ++ ['\n']) = (scanNat text).map fun r => (r.1, r.2 ++ ['\n']) := by
  cases text with
  | nil => rfl
  | cons c text =>
      have read := readDigits_newline 0 (c :: text)
      rw [List.cons_append] at read ⊢
      rw [scanNat, scanNat]
      split
      · rw [read]
        rfl
      · rfl

theorem scanSigned_newline (text : List Char) :
    scanSigned (text ++ ['\n']) = (scanSigned text).map fun r => (r.1, r.2 ++ ['\n']) := by
  have rest := scanNat_newline text
  unfold scanSigned
  split
  · rename_i tail signed
    cases text with
    | nil => cases signed
    | cons c text =>
        cases signed
        simp [scanNat_newline, Function.comp_def]
  · rename_i tail signed
    cases text with
    | nil => cases signed
    | cons c text =>
        cases signed
        simp [scanNat_newline, Function.comp_def]
  · rename_i minus plus
    split
    · exact absurd rfl (minus _)
    · exact absurd rfl (plus _)
    · simp [rest, Function.comp_def]

/-- The newline at the end of a line is not read. -/
theorem scanInt_newline (text : List Char) :
    scanInt (text ++ ['\n']) = (scanInt text).map fun r => (r.1, r.2 ++ ['\n']) := by
  rw [scanInt, scanInt, List.dropWhile_append]
  split
  · rename_i blank
    rw [List.isEmpty_iff.mp blank]
    rfl
  · exact scanSigned_newline _

theorem exists_splitOn_append {front : List Char} (inLine : '\n' ∉ front) (text : List Char) :
    ∃ l ∈ (front ++ text).splitOn '\n', front.length ≤ l.length := by
  by_cases more : '\n' ∈ text
  · obtain ⟨before, after, split, none⟩ := List.eq_append_cons_of_mem more
    refine ⟨front ++ before, ?_, by simp⟩
    rw [split, ← List.append_assoc,
      List.splitOn_append_cons_self_of_not_mem (by simp [inLine, none])]
    exact List.mem_cons_self
  · refine ⟨front ++ text, ?_, by simp⟩
    rw [List.splitOn_eq_singleton (by simp [inLine, more])]
    exact List.mem_singleton_self _

/-- Where every line fits into the buffer, `fgets` reads the file line by line. -/
theorem filterMap_fgetsFrom {α : Type} (f : List Char → Option α) (empty : f [] = none)
    (newline : ∀ line, f (line ++ ['\n']) = f line) {size : ℕ} (text line : List Char)
    (inLine : '\n' ∉ line)
    (short : ∀ l ∈ (line ++ text).splitOn '\n', l.length + 1 < size) :
    (fgetsFrom size line text).filterMap f = ((line ++ text).splitOn '\n').filterMap f := by
  induction text generalizing line with
  | nil =>
      rw [List.append_nil, List.splitOn_eq_singleton inLine, fgetsFrom]
      split
      · rename_i nothing
        simp [nothing, empty]
      · rfl
  | cons c text ih =>
      by_cases ends : c = '\n'
      · subst ends
        rw [List.splitOn_append_cons_self_of_not_mem inLine] at short ⊢
        have rest := ih [] List.not_mem_nil fun l member => short l (List.mem_cons_of_mem _ member)
        rw [fgetsFrom, if_pos (Or.inl rfl), List.filterMap_cons, List.filterMap_cons, newline,
          rest]
        rfl
      · have more : '\n' ∉ line ++ [c] := by simp [inLine, Ne.symm ends]
        rw [List.append_cons] at short ⊢
        have room : line.length + 2 < size := by
          obtain ⟨l, member, bound⟩ := exists_splitOn_append more text
          have fits := short l member
          rw [List.length_append, List.length_singleton] at bound
          omega
        rw [fgetsFrom, if_neg (not_or.mpr ⟨ends, by omega⟩), ih _ more short]

theorem filterMap_fgetsLines {α : Type} (f : List Char → Option α) (empty : f [] = none)
    (newline : ∀ line, f (line ++ ['\n']) = f line) {size : ℕ} {text : List Char}
    (short : ∀ l ∈ text.splitOn '\n', l.length + 1 < size) :
    (fgetsLines size text).filterMap f = (text.splitOn '\n').filterMap f :=
  filterMap_fgetsFrom f empty newline text [] List.not_mem_nil short

end CText

import DistributedColoring.CText
import Mathlib.Data.List.TakeWhile
import Mathlib.Tactic.IntervalCases

set_option autoImplicit false

/- sds.c: lines of arguments as a person types them, and the quoted form in which the
server prints arguments. Characters are bytes. -/
namespace KeyDB

open CText

/-- `isprint` in the C locale. -/
def isPrint (c : Char) : Bool := 32 ≤ c.toNat && c.toNat ≤ 126

/-- One character as `sdscatrepr` writes it: backslash and double quote are `\x5c` and
`\x22`. -/
def reprChar (c : Char) : Text :=
  if c = '\x5c' ∨ c = '\x22' then ['\x5c', c]
  else if c = '\n' then ['\x5c', 'n']
  else if c = '\r' then ['\x5c', 'r']
  else if c = '\t' then ['\x5c', 't']
  else if c = '\x07' then ['\x5c', 'a']
  else if c = '\x08' then ['\x5c', 'b']
  else if isPrint c then [c]
  else ['\x5c', 'x', Nat.digitChar (c.toNat / 16), Nat.digitChar (c.toNat % 16)]

def sdscatrepr (s p : Text) : Text := s ++ '\x22' :: p.flatMap reprChar ++ ['\x22']

def isHexDigit (c : Char) : Bool :=
  ('0' ≤ c && c ≤ '9') || ('a' ≤ c && c ≤ 'f') || ('A' ≤ c && c ≤ 'F')

def hexDigitToInt (c : Char) : ℕ :=
  if '0' ≤ c ∧ c ≤ '9' then c.toNat - '0'.toNat
  else if 'a' ≤ c ∧ c ≤ 'f' then c.toNat - 'a'.toNat + 10
  else if 'A' ≤ c ∧ c ≤ 'F' then c.toNat - 'A'.toNat + 10
  else 0

/-- What a character after a backslash stands for. -/
def unescape (c : Char) : Char :=
  if c = 'n' then '\n'
  else if c = 'r' then '\r'
  else if c = 't' then '\t'
  else if c = 'b' then '\x08'
  else if c = 'a' then '\x07'
  else c

/-- A closing quote is followed by a blank or nothing. -/
def closeQuote (current : Text) : Text → Option (Text × Text)
  | [] => some (current, [])
  | c :: rest => if isSpace c then some (current, c :: rest) else none

/-- The rest of an argument from inside double quotes on. -/
def inQuotes (current : Text) : Text → Option (Text × Text)
  | [] => none
  | '\x5c' :: 'x' :: high :: low :: rest =>
      if isHexDigit high && isHexDigit low then
        inQuotes (current ++ [Char.ofNat (hexDigitToInt high * 16 + hexDigitToInt low)]) rest
      else inQuotes (current ++ ['x']) (high :: low :: rest)
  | '\x5c' :: c :: rest => inQuotes (current ++ [unescape c]) rest
  | '\x22' :: rest => closeQuote current rest
  | c :: rest => inQuotes (current ++ [c]) rest

/-- The rest of an argument from inside single quotes, which are `\x27`, on. -/
def inSingleQuotes (current : Text) : Text → Option (Text × Text)
  | [] => none
  | '\x5c' :: '\x27' :: rest => inSingleQuotes (current ++ ['\x27']) rest
  | '\x27' :: rest => closeQuote current rest
  | c :: rest => inSingleQuotes (current ++ [c]) rest

/-- The rest of an argument from outside of quotes on. The blank that ends it is skipped. -/
def unquoted (current : Text) : Text → Option (Text × Text)
  | [] => some (current, [])
  | c :: rest =>
      if c = ' ' ∨ c = '\n' ∨ c = '\r' ∨ c = '\t' then some (current, rest)
      else if c = '\x22' then inQuotes current rest
      else if c = '\x27' then inSingleQuotes current rest
      else unquoted (current ++ [c]) rest

theorem closeQuote_rest {current p arg rest : Text}
    (found : closeQuote current p = some (arg, rest)) : rest = p := by
  cases p with
  | nil =>
      cases found
      rfl
  | cons c p =>
      rw [closeQuote] at found
      split at found
      · cases found
        rfl
      · cases found

theorem inQuotes_length {current p arg rest : Text}
    (found : inQuotes current p = some (arg, rest)) : rest.length ≤ p.length := by
  fun_induction inQuotes current p with
  | case1 => cases found
  | case2 current high low p hex ih =>
      have := ih found
      simp only [List.length_cons]
      omega
  | case3 current high low p hex ih =>
      have := ih found
      simp only [List.length_cons] at this ⊢
      omega
  | case4 current c p apart ih =>
      have := ih found
      simp only [List.length_cons]
      omega
  | case5 current p =>
      rw [closeQuote_rest found, List.length_cons]
      omega
  | case6 current c p apart noEscape noQuote ih =>
      have := ih found
      rw [List.length_cons]
      omega

theorem inSingleQuotes_length {current p arg rest : Text}
    (found : inSingleQuotes current p = some (arg, rest)) : rest.length ≤ p.length := by
  fun_induction inSingleQuotes current p with
  | case1 => cases found
  | case2 current p ih =>
      have := ih found
      simp only [List.length_cons]
      omega
  | case3 current p =>
      rw [closeQuote_rest found, List.length_cons]
      omega
  | case4 current c p noEscape noQuote ih =>
      have := ih found
      rw [List.length_cons]
      omega

theorem unquoted_length {current p arg rest : Text}
    (found : unquoted current p = some (arg, rest)) : rest.length ≤ p.length := by
  fun_induction unquoted current p with
  | case1 =>
      cases found
      exact Nat.le_refl _
  | case2 current c p blank =>
      cases found
      rw [List.length_cons]
      omega
  | case3 current p blank =>
      have := inQuotes_length found
      rw [List.length_cons]
      omega
  | case4 current p blank apart =>
      have := inSingleQuotes_length found
      rw [List.length_cons]
      omega
  | case5 current c p blank noQuote noSingle ih =>
      have := ih found
      rw [List.length_cons]
      omega

theorem unquoted_cons_length {current p arg rest : Text} {c : Char}
    (found : unquoted current (c :: p) = some (arg, rest)) : rest.length ≤ p.length := by
  rw [unquoted] at found
  split at found
  · cases found
    exact Nat.le_refl _
  · split at found
    · exact inQuotes_length found
    · split at found
      · exact inSingleQuotes_length found
      · exact unquoted_length found

/-- The arguments from `p` on, behind those found before. -/
def splitFrom (vector : List Text) (p : Text) : Option (List Text) :=
  match _ : p.dropWhile isSpace with
  | [] => some vector
  | c :: q =>
      match _ : unquoted [] (c :: q) with
      | none => none
      | some (arg, rest) => splitFrom (vector ++ [arg]) rest
termination_by p.length
decreasing_by
  rename_i skipped found
  have shorter := unquoted_cons_length found
  have bound := (List.dropWhile_suffix (l := p) isSpace).length_le
  rw [skipped, List.length_cons] at bound
  omega

/-- A line ends at its first NUL. `none` is the NULL of a line with unbalanced quotes. -/
def sdssplitargs (line : Text) : Option (List Text) :=
  splitFrom [] (line.takeWhile fun c => c ≠ '\x00')

theorem splitFrom_blank {vector : List Text} {p : Text} :
    splitFrom vector (' ' :: p) = splitFrom vector p := by
  rw [splitFrom, splitFrom]
  rfl

theorem splitFrom_cons {vector : List Text} {c : Char} {p arg rest : Text}
    (dark : isSpace c = false) (found : unquoted [] (c :: p) = some (arg, rest)) :
    splitFrom vector (c :: p) = splitFrom (vector ++ [arg]) rest := by
  have skipped : (c :: p).dropWhile isSpace = c :: p := by
    rw [List.dropWhile_cons_of_neg (by rw [dark]; exact Bool.false_ne_true)]
  rw [splitFrom]
  split
  · rename_i empty
    rw [skipped] at empty
    cases empty
  · rename_i same
    rw [skipped] at same
    cases same
    split
    · rename_i missing
      rw [found] at missing
      cases missing
    · rename_i other
      rw [found] at other
      cases other
      rfl

theorem hexDigit_digitChar {n : ℕ} (small : n < 16) :
    isHexDigit (Nat.digitChar n) = true ∧ hexDigitToInt (Nat.digitChar n) = n := by
  interval_cases n <;> decide

theorem digitChar_ne {n : ℕ} (small : n < 16) :
    Nat.digitChar n ≠ '\x00' ∧ Nat.digitChar n ≠ '\n' := by
  interval_cases n <;> decide

/-- Inside double quotes a character is read back as it was written. -/
theorem inQuotes_reprChar {c : Char} (byte : c.toNat < 256) (current tail : Text) :
    inQuotes current (reprChar c ++ tail) = inQuotes (current ++ [c]) tail := by
  unfold reprChar
  split_ifs with special newline feed tab bell back printable
  · rcases special with rfl | rfl <;> simp [inQuotes, unescape]
  · simp [newline, inQuotes, unescape]
  · simp [feed, inQuotes, unescape]
  · simp [tab, inQuotes, unescape]
  · simp [bell, inQuotes, unescape]
  · simp [back, inQuotes, unescape]
  · obtain ⟨noSlash, noQuote⟩ := not_or.mp special
    simp [inQuotes, noSlash]
  · have high := hexDigit_digitChar (show c.toNat / 16 < 16 by omega)
    have low := hexDigit_digitChar (show c.toNat % 16 < 16 by omega)
    have value : Char.ofNat (c.toNat / 16 * 16 + c.toNat % 16) = c := by
      rw [Nat.div_add_mod', Char.ofNat_toNat]
    simp only [List.cons_append, List.nil_append, inQuotes, high.1, low.1, Bool.and_self,
      ↓reduceIte, high.2, low.2, value]

theorem inQuotes_repr {s : Text} (bytes : ∀ c ∈ s, c.toNat < 256) (current rest : Text) :
    inQuotes current (s.flatMap reprChar ++ '\x22' :: rest) = closeQuote (current ++ s) rest := by
  induction s generalizing current with
  | nil => simp [inQuotes]
  | cons c s ih =>
      rw [List.flatMap_cons, List.append_assoc, inQuotes_reprChar (bytes c (List.mem_cons_self ..)),
        ih (fun other member => bytes other (List.mem_cons_of_mem _ member)), List.append_assoc,
        List.singleton_append]

/-- A quoted argument fits on a line. -/
theorem mem_reprChar {c d : Char} (byte : c.toNat < 256) (member : d ∈ reprChar c) :
    d ≠ '\x00' ∧ d ≠ '\n' := by
  unfold reprChar at member
  split_ifs at member with special newline feed tab bell back printable
  · rcases special with rfl | rfl <;> simp only [List.mem_cons, List.not_mem_nil, or_false,
      or_self] at member
    · subst member
      decide
    · rcases member with rfl | rfl <;> decide
  · rcases List.mem_pair.mp member with rfl | rfl <;> decide
  · rcases List.mem_pair.mp member with rfl | rfl <;> decide
  · rcases List.mem_pair.mp member with rfl | rfl <;> decide
  · rcases List.mem_pair.mp member with rfl | rfl <;> decide
  · rcases List.mem_pair.mp member with rfl | rfl <;> decide
  · rw [List.mem_singleton] at member
    subst member
    refine ⟨?_, newline⟩
    rintro rfl
    cases printable
  · simp only [List.mem_cons, List.not_mem_nil, or_false] at member
    rcases member with rfl | rfl | rfl | rfl
    · decide
    · decide
    · exact digitChar_ne (by omega)
    · exact digitChar_ne (by omega)

/-- The arguments of a command as the loop of `replicationFeedMonitors` prints them. -/
def quotedLine : List Text → Text
  | [] => []
  | [arg] => sdscatrepr [] arg
  | arg :: args => sdscatrepr [] arg ++ ' ' :: quotedLine args

theorem mem_sdscatrepr {arg : Text} (bytes : ∀ c ∈ arg, c.toNat < 256) {d : Char}
    (member : d ∈ sdscatrepr [] arg) : d ≠ '\x00' ∧ d ≠ '\n' := by
  simp only [sdscatrepr, List.nil_append, List.mem_cons, List.mem_append, List.mem_flatMap,
    List.cons_append, List.not_mem_nil, or_false] at member
  rcases member with rfl | ⟨c, inside, member⟩ | rfl
  · decide
  · exact mem_reprChar (bytes c inside) member
  · decide

theorem mem_quotedLine {args : List Text} (bytes : ∀ arg ∈ args, ∀ c ∈ arg, c.toNat < 256)
    {d : Char} (member : d ∈ quotedLine args) : d ≠ '\x00' ∧ d ≠ '\n' := by
  fun_induction quotedLine args with
  | case1 => cases member
  | case2 arg => exact mem_sdscatrepr (bytes arg (List.mem_cons_self ..)) member
  | case3 arg args more ih =>
      rcases List.mem_append.mp member with first | later
      · exact mem_sdscatrepr (bytes arg (List.mem_cons_self ..)) first
      · rcases List.mem_cons.mp later with rfl | later
        · decide
        · exact ih (fun other inside => bytes other (List.mem_cons_of_mem arg inside)) later

/-- A quoted argument is read up to its closing quote. -/
theorem splitFrom_sdscatrepr {arg : Text} (bytes : ∀ c ∈ arg, c.toNat < 256) {rest : Text}
    (closed : closeQuote arg rest = some (arg, rest)) (vector : List Text) :
    splitFrom vector (sdscatrepr [] arg ++ rest) = splitFrom (vector ++ [arg]) rest := by
  have text : sdscatrepr [] arg ++ rest = '\x22' :: (arg.flatMap reprChar ++ '\x22' :: rest) := by
    simp [sdscatrepr]
  rw [text]
  apply splitFrom_cons (by decide)
  rw [unquoted, if_neg (by decide), if_pos rfl, inQuotes_repr bytes, List.nil_append, closed]

theorem splitFrom_quotedLine {args : List Text} (bytes : ∀ arg ∈ args, ∀ c ∈ arg, c.toNat < 256)
    (vector : List Text) : splitFrom vector (quotedLine args) = some (vector ++ args) := by
  have finished : ∀ found : List Text, splitFrom found [] = some found := by
    intro found
    rw [splitFrom]
    rfl
  fun_induction quotedLine args generalizing vector with
  | case1 => rw [finished, List.append_nil]
  | case2 arg =>
      have closed : closeQuote arg [] = some (arg, []) := rfl
      have split := splitFrom_sdscatrepr (bytes arg (List.mem_cons_self ..)) closed vector
      rw [List.append_nil] at split
      rw [split, finished]
  | case3 arg args more ih =>
      rw [splitFrom_sdscatrepr (bytes arg (List.mem_cons_self ..)) rfl, splitFrom_blank,
        ih (fun other inside => bytes other (List.mem_cons_of_mem arg inside)), List.append_assoc,
        List.singleton_append]

/-- Arguments of any bytes, printed in the quoted form, are read back as they were. -/
theorem splitargs_reads_back (args : List Text) (bytes : ∀ arg ∈ args, ∀ c ∈ arg, c.toNat < 256) :
    sdssplitargs (quotedLine args) = some args := by
  have whole : (quotedLine args).takeWhile (fun c => c ≠ '\x00') = quotedLine args := by
    rw [List.takeWhile_eq_self_iff]
    intro c member
    exact decide_eq_true (mem_quotedLine bytes member).1
  rw [sdssplitargs, whole, splitFrom_quotedLine bytes, List.nil_append]

/-- A blank, quotes, a line end and bytes that cannot be printed. -/
theorem splitargs_reads_back_two :
    sdssplitargs (quotedLine [['a', ' ', '\x22', '\n'], ['\x00', '\xff']]) =
      some [['a', ' ', '\x22', '\n'], ['\x00', '\xff']] :=
  splitargs_reads_back _ (by simp)

end KeyDB

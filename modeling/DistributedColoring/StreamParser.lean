import Mathlib.Data.List.Basic

set_option autoImplicit false

/- Parsers of a stream that arrives in pieces. A step looks at what has arrived and not
been used up, and waits, fails or goes on. What a step decides must not change when more
arrives behind it: then the pieces do not matter. -/
namespace StreamParser

variable {α σ β ε : Type*}

/-- What one step of a parser does with the elements at hand. -/
inductive Outcome (σ β ε : Type*) where
  | wait
  | fail (reason : ε)
  | step (used : ℕ) (state : σ) (out : List β)

/-- A parser, with the state it keeps between the steps. -/
structure Parser (α σ β ε : Type*) where
  next : σ → List α → Outcome σ β ε
  used_pos : ∀ s input n s' out, next s input = .step n s' out → 0 < n
  used_le : ∀ s input n s' out, next s input = .step n s' out → n ≤ input.length
  stable : ∀ s input more, next s input ≠ .wait → next s (input ++ more) = next s input

variable {P : Parser α σ β ε} {s s' s'' : σ} {input rest rest' more : List α} {out out' : List β}

/-- Some steps lead from one state to another, and put something out. -/
inductive Leads (P : Parser α σ β ε) : σ → List α → List β → σ → List α → Prop
  | refl (s : σ) (input : List α) : Leads P s input [] s input
  | head {s s' s'' : σ} {input rest : List α} {n : ℕ} {out out' : List β}
      (first : P.next s input = .step n s' out) (others : Leads P s' (input.drop n) out' s'' rest) :
      Leads P s input (out ++ out') s'' rest

theorem Leads.single {n : ℕ} (first : P.next s input = .step n s' out) :
    Leads P s input out s' (input.drop n) := by
  have leads := Leads.head first (.refl s' (input.drop n))
  rwa [List.append_nil] at leads

theorem Leads.trans (first : Leads P s input out s' rest)
    (second : Leads P s' rest out' s'' rest') : Leads P s input (out ++ out') s'' rest' := by
  induction first with
  | refl => exact second
  | head step _ ih =>
      rw [List.append_assoc]
      exact .head step (ih second)

/-- What is used up is not looked at again. -/
theorem Leads.length_le (leads : Leads P s input out s' rest) : rest.length ≤ input.length := by
  induction leads with
  | refl => exact Nat.le_refl _
  | head first _ ih =>
      rw [List.length_drop] at ih
      omega

/-- The steps are the same when more has arrived. -/
theorem Leads.append (leads : Leads P s input out s' rest) (more : List α) :
    Leads P s (input ++ more) out s' (rest ++ more) := by
  induction leads with
  | refl => exact .refl _ _
  | head first _ ih =>
      have same := P.stable _ _ more (by rw [first]; exact fun absurd => by cases absurd)
      rw [← List.drop_append_of_le_length (P.used_le _ _ _ _ _ first)] at ih
      exact .head (same.trans first) ih

/-- Where the parser stops: what it has put out, the state it is in, what is left, and the
reason if it has failed. -/
structure Result (α σ β ε : Type*) where
  out : List β
  state : σ
  rest : List α
  error : Option ε

/-- Steps are made until the parser waits or fails. -/
def drain (P : Parser α σ β ε) (s : σ) (input : List α) : Result α σ β ε :=
  match _ : P.next s input with
  | .wait => ⟨[], s, input, none⟩
  | .fail reason => ⟨[], s, input, some reason⟩
  | .step n s' out =>
      { drain P s' (input.drop n) with out := out ++ (drain P s' (input.drop n)).out }
termination_by input.length
decreasing_by
  all_goals
    rename_i first
    have positive := P.used_pos _ _ _ _ _ first
    have bound := P.used_le _ _ _ _ _ first
    rw [List.length_drop]
    omega

theorem drain_of_wait (waits : P.next s input = .wait) :
    drain P s input = ⟨[], s, input, none⟩ := by
  rw [drain]
  split <;> rename_i next <;> rw [waits] at next <;> cases next

theorem drain_of_fail {reason : ε} (fails : P.next s input = .fail reason) :
    drain P s input = ⟨[], s, input, some reason⟩ := by
  rw [drain]
  split <;> rename_i next <;> rw [fails] at next <;> cases next
  rfl

theorem drain_of_step {n : ℕ} (first : P.next s input = .step n s' out) :
    drain P s input =
      { drain P s' (input.drop n) with out := out ++ (drain P s' (input.drop n)).out } := by
  rw [drain]
  split <;> rename_i next <;> rw [first] at next <;> cases next
  rfl

/-- A parser that has made some of its steps goes on to the same end. -/
theorem Leads.drain (leads : Leads P s input out s' rest) :
    drain P s input =
      { StreamParser.drain P s' rest with out := out ++ (StreamParser.drain P s' rest).out } := by
  induction leads with
  | refl => rw [List.nil_append]
  | head first _ ih => rw [drain_of_step first, ih, List.append_assoc]

theorem Leads.prefix_drain (leads : Leads P s input out s' rest) :
    out <+: (StreamParser.drain P s input).out := by
  rw [leads.drain]
  exact List.prefix_append _ _

theorem Leads.drain_of_wait (leads : Leads P s input out s' rest) (waits : P.next s' rest = .wait) :
    StreamParser.drain P s input = ⟨out, s', rest, none⟩ := by
  rw [leads.drain, StreamParser.drain_of_wait waits, List.append_nil]

/-- The parser gets to where it stops by its steps. -/
theorem leads_drain (P : Parser α σ β ε) (s : σ) (input : List α) :
    Leads P s input (drain P s input).out (drain P s input).state (drain P s input).rest := by
  cases first : P.next s input with
  | wait =>
      rw [drain_of_wait first]
      exact .refl _ _
  | fail reason =>
      rw [drain_of_fail first]
      exact .refl _ _
  | step n s' out =>
      rw [drain_of_step first]
      exact .head first (leads_drain P s' (input.drop n))
termination_by input.length
decreasing_by
  have positive := P.used_pos _ _ _ _ _ first
  have bound := P.used_le _ _ _ _ _ first
  rw [List.length_drop]
  omega

end StreamParser

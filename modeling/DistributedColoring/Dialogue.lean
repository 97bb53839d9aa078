import Mathlib.Data.Nat.Notation

set_option autoImplicit false

/- Programs that send commands and compute with the replies. A program is run against the
replies it will get, and its trace pairs every command with its reply; when the replies
are used up it waits with its last command sent. Two judgements: what holds of trace and
outcome whatever the replies, and that certain replies make the program return. -/
namespace Dialogue

inductive Outcome (α : Type)
  | returned (value : α)
  /-- The last command has no reply yet. -/
  | waiting
  | crashed
  deriving DecidableEq

structure Result (C R α : Type) where
  trace : List (C × Option R)
  /-- The replies not used. -/
  rest : List R
  outcome : Outcome α

def Proc (C R α : Type) : Type := List R → Result C R α

variable {C R α β σ : Type}

/-- What comes after a program that has returned. -/
def Result.follow (before : Result C R α) (next : α → Proc C R β) : Result C R β :=
  match before with
  | ⟨trace, rest, .returned value⟩ =>
      ⟨trace ++ (next value rest).trace, (next value rest).rest, (next value rest).outcome⟩
  | ⟨trace, rest, .waiting⟩ => ⟨trace, rest, .waiting⟩
  | ⟨trace, rest, .crashed⟩ => ⟨trace, rest, .crashed⟩

namespace Proc

def ret (value : α) : Proc C R α := fun replies => ⟨[], replies, .returned value⟩

def crash : Proc C R α := fun replies => ⟨[], replies, .crashed⟩

def ask (command : C) : Proc C R R
  | [] => ⟨[(command, none)], [], .waiting⟩
  | reply :: rest => ⟨[(command, some reply)], rest, .returned reply⟩

instance : Monad (Proc C R) where
  pure := ret
  bind first next := fun replies => (first replies).follow next

/-- A value that may be missing. -/
def orCrash : Option α → Proc C R α
  | some value => pure value
  | none => crash

/-- Passes of a loop, a bounded number of them. -/
def passes (body : σ → Proc C R (σ ⊕ α)) : ℕ → σ → Proc C R α
  | 0, _ => fun replies => ⟨[], replies, .waiting⟩
  | n + 1, state => do
      match ← body state with
      | .inl state => passes body n state
      | .inr value => pure value

/-- A loop each pass of which sends a command: there are no more passes than replies, and
one more that waits. -/
def loop (body : σ → Proc C R (σ ⊕ α)) (state : σ) : Proc C R α :=
  fun replies => passes body (replies.length + 1) state replies

/-- Whatever the replies. -/
def Holds (p : Proc C R α) (post : List (C × Option R) → Outcome α → Prop) : Prop :=
  ∀ replies, post (p replies).trace (p replies).outcome

/-- Every command sent, with its reply if there is one. -/
def Sends (p : Proc C R α) (P : C × Option R → Prop) : Prop :=
  p.Holds fun trace _ => ∀ e ∈ trace, P e

/-- Some replies make the program return with a trace and a value as said. -/
def CanReturn (p : Proc C R α) (post : List (C × Option R) → α → Prop) : Prop :=
  ∃ replies trace value, (∀ rest, p (replies ++ rest) = ⟨trace, rest, .returned value⟩) ∧
    post trace value

variable {post mid : List (C × Option R) → Outcome α → Prop}
  {after : List (C × Option R) → Outcome β → Prop}

theorem Holds.pure {value : α} (holds : post [] (.returned value)) :
    (pure value : Proc C R α).Holds post :=
  fun _ => holds

theorem Holds.crash (holds : post [] .crashed) : (crash : Proc C R α).Holds post :=
  fun _ => holds

theorem Holds.ask {command : C} {post : List (C × Option R) → Outcome R → Prop}
    (unanswered : post [(command, none)] .waiting)
    (answered : ∀ reply, post [(command, some reply)] (.returned reply)) :
    (ask command).Holds post := by
  intro replies
  cases replies with
  | nil => exact unanswered
  | cons reply rest => exact answered reply

theorem Holds.orCrash {value : Option α} (missing : value = none → post [] .crashed)
    (found : ∀ x, value = some x → post [] (.returned x)) :
    (orCrash value : Proc C R α).Holds post := by
  cases value with
  | none => exact .crash (missing rfl)
  | some x => exact .pure (found x rfl)

theorem Holds.mono {p : Proc C R α} (holds : p.Holds mid)
    (weaker : ∀ trace outcome, mid trace outcome → post trace outcome) : p.Holds post :=
  fun replies => weaker _ _ (holds replies)

/-- The rule of sequence. -/
theorem Holds.bind {first : Proc C R α} {next : α → Proc C R β} (before : first.Holds mid)
    (waits : ∀ trace, mid trace .waiting → after trace .waiting)
    (crashes : ∀ trace, mid trace .crashed → after trace .crashed)
    (goesOn : ∀ trace value, mid trace (.returned value) →
      (next value).Holds fun later outcome => after (trace ++ later) outcome) :
    (first >>= next).Holds after := by
  intro replies
  have held := before replies
  change after ((first replies).follow next).trace ((first replies).follow next).outcome
  generalize first replies = result at held
  obtain ⟨trace, rest, outcome⟩ := result
  cases outcome with
  | returned value => exact goesOn trace value held rest
  | waiting => exact waits trace held
  | crashed => exact crashes trace held

/-- A command first. -/
theorem Holds.ask_bind {command : C} {next : R → Proc C R β}
    (unanswered : after [(command, none)] .waiting)
    (goesOn : ∀ reply, (next reply).Holds fun later outcome =>
      after ((command, some reply) :: later) outcome) :
    (Proc.ask command >>= next).Holds after := by
  intro replies
  cases replies with
  | nil => exact unanswered
  | cons reply rest => exact goesOn reply rest

/-- A value first that may be missing. -/
theorem Holds.orCrash_bind {value : Option α} {next : α → Proc C R β}
    (missing : value = none → after [] .crashed)
    (found : ∀ x, value = some x → (next x).Holds after) :
    (Proc.orCrash value >>= next).Holds after := by
  cases value with
  | none => exact fun _ => missing rfl
  | some x => exact fun replies => found x rfl replies

section Sends

variable {P : C × Option R → Prop}

theorem Sends.ask {command : C} (sent : ∀ reply, P (command, reply)) : (ask command).Sends P :=
  Holds.ask (by simpa using sent none) fun reply => by simpa using sent (some reply)

theorem Sends.pure (value : α) : (pure value : Proc C R α).Sends P :=
  Holds.pure (by simp)

theorem Sends.orCrash (value : Option α) : (orCrash value : Proc C R α).Sends P :=
  Holds.orCrash (by simp) (by simp)

theorem Sends.bind {first : Proc C R α} {next : α → Proc C R β} (before : first.Sends P)
    (later : ∀ value, (next value).Sends P) : (first >>= next).Sends P := by
  refine Holds.bind before (fun _ held => held) (fun _ held => held) ?_
  intro trace value held
  exact (later value).mono fun more _ all => List.forall_mem_append.mpr ⟨held, all⟩

theorem Sends.loop {body : σ → Proc C R (σ ⊕ α)} (pass : ∀ state, (body state).Sends P)
    (state : σ) : (loop body state).Sends P := by
  have all : ∀ n state, (passes body n state).Sends P := by
    intro n
    induction n with
    | zero => simp [Sends, Holds, passes]
    | succ n ih =>
        intro state
        refine (pass state).bind fun value => ?_
        cases value with
        | inl state => exact ih state
        | inr value => exact .pure value
  exact fun replies => all (replies.length + 1) state replies

end Sends

section CanReturn

variable {post mid : List (C × Option R) → α → Prop} {after : List (C × Option R) → β → Prop}

theorem CanReturn.pure {value : α} (holds : post [] value) :
    (pure value : Proc C R α).CanReturn post :=
  ⟨[], [], value, fun _ => rfl, holds⟩

theorem CanReturn.bind {first : Proc C R α} {next : α → Proc C R β} (before : first.CanReturn mid)
    (goesOn : ∀ trace value, mid trace value →
      (next value).CanReturn fun later result => after (trace ++ later) result) :
    (first >>= next).CanReturn after := by
  obtain ⟨replies, trace, value, returns, held⟩ := before
  obtain ⟨replies', trace', value', returns', held'⟩ := goesOn trace value held
  refine ⟨replies ++ replies', trace ++ trace', value', fun rest => ?_, held'⟩
  change (first _).follow next = _
  rw [List.append_assoc, returns]
  change Result.mk (trace ++ (next value (replies' ++ rest)).trace) _ _ = _
  rw [returns']

theorem CanReturn.ask_bind {command : C} {next : R → Proc C R β} (reply : R)
    (goesOn : (next reply).CanReturn fun later result =>
      after ((command, some reply) :: later) result) :
    (ask command >>= next).CanReturn after := by
  obtain ⟨replies, trace, value, returns, held⟩ := goesOn
  refine ⟨reply :: replies, _, value, fun rest => ?_, held⟩
  change (Result.mk [(command, some reply)] (replies ++ rest) (.returned reply)).follow next = _
  rw [Result.follow, returns]
  rfl

theorem CanReturn.orCrash_bind {value : Option α} {next : α → Proc C R β} {x : α}
    (found : value = some x) (goesOn : (next x).CanReturn after) :
    (orCrash value >>= next).CanReturn after := by
  rw [found]
  exact goesOn

/-- A loop that ends with its first pass. -/
theorem CanReturn.loop {body : σ → Proc C R (σ ⊕ α)} {state : σ} {value : α}
    (pass : body state = Pure.pure (.inr value)) (holds : post [] value) :
    (loop body state).CanReturn post := by
  refine ⟨[], [], value, fun rest => ?_, holds⟩
  change (body state ([] ++ rest)).follow _ = _
  rw [pass]
  rfl

end CanReturn

end Proc

end Dialogue

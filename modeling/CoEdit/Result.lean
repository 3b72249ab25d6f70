/-!
# Results

A call answers or is refused with an error. It does neither where a sum on the way is no word and the
program stops.
-/
namespace CoEdit

/-- What a call comes to. -/
inductive Result (ε α : Type) where
  | ok (answer : α)
  | error (e : ε)
  /-- The program stopped because of a sum that is no word. -/
  | overflow
  deriving DecidableEq

namespace Result

variable {ε α β : Type}

def map (f : α → β) : Result ε α → Result ε β
  | .ok answer => .ok (f answer)
  | .error e => .error e
  | .overflow => .overflow

def bind (result : Result ε α) (next : α → Result ε β) : Result ε β :=
  match result with
  | .ok answer => next answer
  | .error e => .error e
  | .overflow => .overflow

instance : Monad (Result ε) where
  pure := .ok
  bind := bind

/-- The result of a call that adds no words. -/
def ofExcept : Except ε α → Result ε α
  | .ok answer => .ok answer
  | .error e => .error e

def toOption : Result ε α → Option α
  | .ok answer => some answer
  | .error _ => none
  | .overflow => none

@[simp] theorem bind_ok (answer : α) (next : α → Result ε β) : (ok answer).bind next = next answer :=
  rfl

theorem bind_eq_ok_iff {result : Result ε α} {next : α → Result ε β} {answer : β} :
    result.bind next = .ok answer ↔ ∃ first, result = .ok first ∧ next first = .ok answer := by
  cases result <;> simp [bind]

@[simp] theorem toOption_ofExcept (result : Except ε α) : (ofExcept result).toOption = result.toOption := by
  cases result <;> rfl

theorem ofExcept_ne_overflow {result : Except ε α} : ofExcept result ≠ .overflow := by
  cases result <;> simp [ofExcept]

theorem ofExcept_eq_ok_iff {result : Except ε α} {answer : α} :
    ofExcept result = .ok answer ↔ result = .ok answer := by
  cases result <;> simp [ofExcept]

end Result
end CoEdit

import CoEdit.Transform.Basic

/-!
# Answers that join

Two changes were made to one state, each leading to a state of its own. An answer of a rule joins the
two results if what became of the second change leads from the first result to the state to which what
became of the first change leads from the second result. The notion is about any kind of state and
change; `Joins.swap` lets a rule be looked at from either side.
-/
namespace CoEdit

/-- What an outcome makes of a state; a side with nothing left to do keeps it. -/
def Outcome.follow {σ α : Type} (edit? : σ → α → Option σ) (state : σ) : Outcome α → Option σ
  | .becomes change => edit? state change
  | .dropped => some state

theorem Outcome.follow_map {σ τ α β : Type} {edit? : σ → α → Option σ} {wide? : τ → β → Option τ}
    {f : α → β} {g : σ → τ}
    (hwide : ∀ state change, wide? (g state) (f change) = (edit? state change).map g) (state : σ)
    (outcome : Outcome α) :
    (outcome.map f).follow wide? (g state) = (outcome.follow edit? state).map g := by
  cases outcome with
  | becomes change => exact hwide state change
  | dropped => rfl

namespace Reconciled

variable {σ α β : Type} {edit? : σ → α → Option σ} {afterFirst afterSecond joined : σ}

/-- The answer is no error and leads both results to one state. -/
def Joins (edit? : σ → α → Option σ) (afterFirst afterSecond : σ) (answer : Reconciled α) : Prop :=
  ∃ first second joined, answer = .ok (first, second) ∧
    second.follow edit? afterFirst = some joined ∧ first.follow edit? afterSecond = some joined

theorem Joins.swap {answer : Reconciled α} (h : answer.Joins edit? afterFirst afterSecond) :
    answer.swap.Joins edit? afterSecond afterFirst := by
  obtain ⟨first, second, joined, rfl, hsecond, hfirst⟩ := h
  exact ⟨second, first, joined, rfl, hfirst, hsecond⟩

theorem joins_both {first second : α} (hsecond : edit? afterFirst second = some joined)
    (hfirst : edit? afterSecond first = some joined) :
    (both first second).Joins edit? afterFirst afterSecond :=
  ⟨.becomes first, .becomes second, joined, rfl, hsecond, hfirst⟩

theorem joins_firstOnly {first : α} (hfirst : edit? afterSecond first = some afterFirst) :
    (firstOnly first).Joins edit? afterFirst afterSecond :=
  ⟨.becomes first, .dropped, afterFirst, rfl, rfl, hfirst⟩

theorem joins_secondOnly {second : α} (hsecond : edit? afterFirst second = some afterSecond) :
    (secondOnly second).Joins edit? afterFirst afterSecond :=
  ⟨.dropped, .becomes second, afterSecond, rfl, hsecond, rfl⟩

theorem joins_neither (h : afterFirst = afterSecond) :
    (neither : Reconciled α).Joins edit? afterFirst afterSecond :=
  ⟨.dropped, .dropped, afterFirst, rfl, rfl, congrArg some h.symm⟩

/-- Of two whole-value changes the first may win, and two that agree lead to one state already. -/
theorem joins_firstWins {agree : Bool} {first : α}
    (hfirst : edit? afterSecond first = some afterFirst)
    (hagree : agree = true → afterFirst = afterSecond) :
    (firstWins agree first).Joins edit? afterFirst afterSecond := by
  cases agree with
  | false => exact joins_firstOnly hfirst
  | true => exact joins_neither (hagree rfl)

/-- Joining is not lost where states and changes are seen as those of a larger type. -/
theorem Joins.lift {τ : Type} {wide? : τ → β → Option τ} {f : α → β} {g : σ → τ}
    (hwide : ∀ state change, wide? (g state) (f change) = (edit? state change).map g)
    {answer : Reconciled α} (h : answer.Joins edit? afterFirst afterSecond) :
    (answer.lift f).Joins wide? (g afterFirst) (g afterSecond) := by
  obtain ⟨first, second, joined, rfl, hsecond, hfirst⟩ := h
  refine ⟨first.map f, second.map f, g joined, rfl, ?_, ?_⟩
  · rw [Outcome.follow_map hwide, hsecond, Option.map_some]
  · rw [Outcome.follow_map hwide, hfirst, Option.map_some]

end Reconciled

theorem Reconciled.exists_of_lift {α β : Type} {f : α → β} {answer : Reconciled α}
    {wide wide' : Outcome β} (h : answer.lift f = .ok (wide, wide')) :
    ∃ first second, answer = .ok (first, second) ∧ wide = first.map f ∧ wide' = second.map f := by
  cases answer with
  | error e => cases h
  | ok pair =>
      cases h
      exact ⟨pair.1, pair.2, rfl, rfl, rfl⟩

/-- What is left of a side, if anything, satisfies `p`. -/
def Outcome.All {α : Type} (p : α → Prop) : Outcome α → Prop
  | .becomes change => p change
  | .dropped => True

theorem Outcome.All.imp {α : Type} {p q : α → Prop} {outcome : Outcome α} (h : outcome.All p)
    (hpq : ∀ change, p change → q change) : outcome.All q := by
  cases outcome with
  | becomes change => exact hpq change h
  | dropped => trivial

namespace Reconciled

variable {α β : Type} {p q : α → Prop}

/-- Whenever the rule answers, what is left of the first side satisfies `p`, of the second `q`. -/
def Keeps (p q : α → Prop) (answer : Reconciled α) : Prop :=
  ∀ first second, answer = .ok (first, second) → first.All p ∧ second.All q

theorem keeps_ok (pair : Outcome α × Outcome α) :
    Keeps p q (.ok pair : Reconciled α) ↔ pair.1.All p ∧ pair.2.All q := by
  constructor
  · intro h
    exact h pair.1 pair.2 rfl
  · rintro h first second heq
    cases heq
    exact h

theorem keeps_error (e : TransformError) : Keeps p q (.error e : Reconciled α) := by
  intro first second h
  cases h

theorem keeps_both {first second : α} (hfirst : p first) (hsecond : q second) :
    (both first second).Keeps p q := (keeps_ok _).2 ⟨hfirst, hsecond⟩

theorem keeps_firstOnly {first : α} (h : p first) : (firstOnly first).Keeps p q :=
  (keeps_ok _).2 ⟨h, trivial⟩

theorem keeps_secondOnly {second : α} (h : q second) : (secondOnly second).Keeps p q :=
  (keeps_ok _).2 ⟨trivial, h⟩

theorem keeps_neither : (neither : Reconciled α).Keeps p q :=
  (keeps_ok _).2 ⟨trivial, trivial⟩

theorem keeps_firstWins {agree : Bool} {first : α} (h : p first) :
    (firstWins agree first).Keeps p q := by
  cases agree with
  | false => exact keeps_firstOnly h
  | true => exact keeps_neither

theorem Keeps.swap {answer : Reconciled α} (h : answer.Keeps p q) : answer.swap.Keeps q p := by
  cases answer with
  | error e => exact keeps_error e
  | ok pair => exact (keeps_ok _).2 ((keeps_ok pair).1 h).symm

theorem Keeps.lift {f : α → β} {p' q' : β → Prop} (hp : ∀ a, p a → p' (f a))
    (hq : ∀ a, q a → q' (f a)) {answer : Reconciled α} (h : answer.Keeps p q) :
    (answer.lift f).Keeps p' q' := by
  have hall {r : α → Prop} {r' : β → Prop} (hr : ∀ a, r a → r' (f a)) (outcome : Outcome α)
      (ho : outcome.All r) : (outcome.map f).All r' := by
    cases outcome with
    | becomes a => exact hr a ho
    | dropped => trivial
  cases answer with
  | error e => exact keeps_error e
  | ok pair =>
      have hpair := (keeps_ok pair).1 h
      exact (keeps_ok _).2 ⟨hall hp _ hpair.1, hall hq _ hpair.2⟩

end Reconciled
end CoEdit

import Lichee.Base.Errors

/- What a computation that may stop comes to: `Outcome E Q x` says that `x` returns a result in
   `Q` or stops with an error in `E`. With all errors in `E` it is partial correctness, with none
   total correctness, and its rules follow the shape of the computation. -/
namespace Lichee.Base

variable {ε α β : Type}

/-- `x` returns a result in `Q`, or stops with an error in `E`. -/
def Outcome (E : ε → Prop) (Q : α → Prop) (x : Except ε α) : Prop :=
  (∀ a, x = .ok a → Q a) ∧ ∀ e, x = .error e → E e

namespace Outcome
variable {E E' : ε → Prop} {Q Q' : α → Prop} {R : β → Prop}

theorem ok {a : α} (h : Q a) : Outcome E Q (.ok a) := by
  refine ⟨?_, ?_⟩
  · intro b hb
    cases hb
    exact h
  · intro e he
    cases he

theorem error {e : ε} (h : E e) : Outcome E Q (.error e) := by
  refine ⟨?_, ?_⟩
  · intro a ha
    cases ha
  · intro e' he
    cases he
    exact h

theorem mono {x : Except ε α} (h : Outcome E Q x) (hE : ∀ e, E e → E' e) (hQ : ∀ a, Q a → Q' a) :
    Outcome E' Q' x :=
  ⟨fun a ha => hQ a (h.1 a ha), fun e he => hE e (h.2 e he)⟩

theorem imp {x : Except ε α} (h : Outcome E Q x) (hQ : ∀ a, Q a → Q' a) : Outcome E Q' x :=
  h.mono (fun _ => id) hQ

/-- One computation after the other. -/
theorem bind {x : Except ε α} {f : α → Except ε β} (hx : Outcome E Q x)
    (hf : ∀ a, Q a → Outcome E R (f a)) : Outcome E R (x >>= f) := by
  cases x with
  | error e => exact .error (hx.2 e rfl)
  | ok a => exact hf a (hx.1 a rfl)

end Outcome

end Lichee.Base

import Mathlib.Logic.Basic

/- Computations that may stop with an error. `bind_eq_ok` and `bind_eq_error` take a
   sequence apart by its outcome; `OnlyRaises P` says that a computation stops with no
   error outside `P`, and its rules follow the shape of the computation. -/
namespace Lichee.Base

variable {ε α β : Type}

/-- What a sequence of two computations returned, the first one returned too. -/
theorem bind_eq_ok {x : Except ε α} {f : α → Except ε β} {b : β} :
    (x >>= f) = .ok b ↔ ∃ a, x = .ok a ∧ f a = .ok b := by
  cases x with
  | error e => simp [bind, Except.bind]
  | ok a => simp [bind, Except.bind]

theorem bind_eq_error {x : Except ε α} {f : α → Except ε β} {e : ε} :
    (x >>= f) = .error e ↔ x = .error e ∨ ∃ a, x = .ok a ∧ f a = .error e := by
  cases x with
  | error e => simp [bind, Except.bind]
  | ok a => simp [bind, Except.bind]

/-- A sequence whose second computation always returns, returns when the first one does. -/
theorem bind_returns {x : Except ε α} {f : α → Except ε β} (hf : ∀ a, ∃ b, f a = .ok b) :
    (∃ b, (x >>= f) = .ok b) ↔ ∃ a, x = .ok a := by
  refine ⟨?_, ?_⟩
  · intro ⟨b, h⟩
    obtain ⟨a, ha, -⟩ := bind_eq_ok.mp h
    exact ⟨a, ha⟩
  · intro ⟨a, ha⟩
    obtain ⟨b, hb⟩ := hf a
    exact ⟨b, bind_eq_ok.mpr ⟨a, ha, hb⟩⟩

theorem map_returns {x : Except ε α} {f : α → β} : (∃ b, x.map f = .ok b) ↔ ∃ a, x = .ok a := by
  cases x with
  | error e => simp [Except.map]
  | ok a => simp [Except.map]

@[simp] theorem ok_bind (a : α) (f : α → Except ε β) : (Except.ok a >>= f) = f a := rfl

@[simp] theorem error_bind (e : ε) (f : α → Except ε β) :
    ((Except.error e : Except ε α) >>= f) = .error e := rfl

/-- An error is no result. -/
theorem error_not_ok (e : ε) : ¬ ∃ a, (Except.error e : Except ε α) = .ok a := by
  intro h
  obtain ⟨a, ha⟩ := h
  cases ha

/-- Every error `x` can stop with is in `P`. -/
def OnlyRaises (P : ε → Prop) (x : Except ε α) : Prop := ∀ e, x = .error e → P e

namespace OnlyRaises
variable {P : ε → Prop}

theorem ok (a : α) : OnlyRaises P (.ok a : Except ε α) := by
  intro e h
  cases h

theorem error {e : ε} (h : P e) : OnlyRaises P (.error e : Except ε α) := by
  intro e' he
  cases he
  exact h

theorem bind {x : Except ε α} {f : α → Except ε β} (hx : OnlyRaises P x)
    (hf : ∀ a, OnlyRaises P (f a)) : OnlyRaises P (x >>= f) := by
  intro e h
  rcases bind_eq_error.mp h with h | ⟨a, -, h⟩
  · exact hx e h
  · exact hf a e h

end OnlyRaises

end Lichee.Base

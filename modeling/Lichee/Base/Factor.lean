import Mathlib.Order.Monotone.Defs

/- Common factors under a commutative operator. Two values with a common factor are compared by
   what is left of them (`Cancels`): a rewriting that takes equal operands out of two expressions is
   followed operand by operand with `Cancels.op_left` and `Cancels.op_right`. -/
namespace Lichee.Base

variable {α : Type*} (op : α → α → α)

/-- `a` and `b` are `a'` and `b'`, each combined with the same. -/
def Cancels (a b a' b' : α) : Prop := ∃ c, a = op a' c ∧ b = op b' c

variable {op} {a b c a' b' a₁ a₂ b₁ b₂ e x y : α}

theorem Cancels.symm (h : Cancels op a b a' b') : Cancels op b a b' a' := by
  obtain ⟨c, ha, hb⟩ := h
  exact ⟨c, hb, ha⟩

/-- The order of what is left is the order of the whole. -/
theorem Cancels.le [Preorder α] (hmono : ∀ c, Monotone (op · c)) (h : Cancels op a b a' b')
    (hle : a' ≤ b') : a ≤ b := by
  obtain ⟨c, rfl, rfl⟩ := h
  exact hmono c hle

section Identity
variable [Std.LawfulIdentity op e]
include e

theorem Cancels.refl (a b : α) : Cancels op a b a b :=
  ⟨e, (Std.LawfulRightIdentity.right_id a).symm, (Std.LawfulRightIdentity.right_id b).symm⟩

theorem Cancels.of_eq (h : a = b) : Cancels op a b e e := by
  refine ⟨a, ?_, ?_⟩
  · exact (Std.LawfulLeftIdentity.left_id a).symm
  · rw [← h]
    exact (Std.LawfulLeftIdentity.left_id a).symm

end Identity

variable [Std.Associative op]

variable [Std.Commutative op]

/-- The operands of the first value, one after the other, against the second value. -/
theorem Cancels.op_left (h : Cancels op a b a' b₁) (h' : Cancels op c b₁ x b₂) :
    Cancels op (op a c) b (op a' x) b₂ := by
  obtain ⟨d, rfl, rfl⟩ := h
  obtain ⟨f, rfl, rfl⟩ := h'
  refine ⟨op f d, ?_, Std.Associative.assoc b₂ f d⟩
  calc op (op a' d) (op x f) = op a' (op d (op x f)) := Std.Associative.assoc _ _ _
    _ = op a' (op (op x f) d) := congrArg (op a') (Std.Commutative.comm d (op x f))
    _ = op a' (op x (op f d)) := congrArg (op a') (Std.Associative.assoc x f d)
    _ = op (op a' x) (op f d) := (Std.Associative.assoc _ _ _).symm

/-- The operands of the second value, one after the other, against the first value. -/
theorem Cancels.op_right (h : Cancels op a b a₁ b') (h' : Cancels op a₁ c a₂ y) :
    Cancels op a (op b c) a₂ (op b' y) :=
  (h.symm.op_left h'.symm).symm

end Lichee.Base

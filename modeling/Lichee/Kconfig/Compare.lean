import Lichee.Kconfig.Dups

/- Questions about a dependency (package/config/expr.c): whether it is "y" or "n", asked of its
   symbols (`expr_trans_compare`), whether it names a symbol, and whether it cannot hold without
   it. The functions of the normal form are put together here with a depth that is enough for
   them, so that they are functions. -/
namespace Lichee.Kconfig
open Base

/-! ## Functions with enough depth -/

section
variable (T : Table)

theorem exprTransform_isSome (e : Expr) : (exprTransform T (2 * e.height + 3) e).isSome := by
  obtain ⟨e', h, -⟩ := exprTransform_returns (T := T) e (le_refl _)
  rw [h, Option.isSome_some]

/-- `expr_transform` -/
def Expr.transform (e : Expr) : Expr :=
  (exprTransform T (2 * e.height + 3) e).get (exprTransform_isSome T e)

theorem exprEliminateDups_isSome (e : Expr) :
    (exprEliminateDups T (2 * e.size + cost2 e.size) e.size e).isSome := by
  obtain ⟨e', h⟩ := exprEliminateDups_returns (T := T) e (le_refl _) (le_refl _)
  rw [h, Option.isSome_some]

/-- `expr_eliminate_dups` -/
def Expr.eliminateDups (e : Expr) : Expr :=
  (exprEliminateDups T (2 * e.size + cost2 e.size) e.size e).get (exprEliminateDups_isSome T e)

theorem exprEliminateEq_isSome (e1 e2 : Expr) :
    (exprEliminateEq (4 * (e1.size + e2.size)) e1 e2).isSome := by
  obtain ⟨a, b, h⟩ := exprEliminateEq_returns e1 e2 (le_refl _)
  rw [h, Option.isSome_some]

/-- `expr_eliminate_eq` -/
def Expr.eliminateEq (e1 e2 : Expr) : Expr × Expr :=
  (exprEliminateEq (4 * (e1.size + e2.size)) e1 e2).get (exprEliminateEq_isSome e1 e2)

variable {T}

theorem Expr.transform_value (V : Values T) (e : Expr) : (e.transform T).value V = e.value V :=
  exprTransform_value V (Option.some_get _).symm

theorem Expr.eliminateDups_decides (V : Values T) (e : Expr) :
    Decides (e.value V) ((e.eliminateDups T).value V) :=
  (exprEliminateDups_decides (Option.some_get _).symm).1 V

theorem Expr.eliminateEq_le (V : Values T) (e1 e2 : Expr) :
    Reflects V e1 e2 (e1.eliminateEq e2).1 (e1.eliminateEq e2).2 :=
  exprEliminateEq_le (Option.some_get _).symm V

end

/-! ## The questions -/

/-- The constant a dependency is compared with: "y" or "n". -/
def ynSymbol (isYes : Bool) : Symbol := if isYes then symbolYes else symbolNo

/-- `e = expr_alloc_one(E_NOT, e)` where the comparison is `E_UNEQUAL` -/
def allocUnequal (type : CompType) (e : Expr) : Expr :=
  match type with
  | .equal => e
  | .unequal => .not e

/-- The connective of the operands' comparisons: "y" needs of a conjunction both, "n" one. -/
def compareTwo (isYes : Bool) (type : TwoType) : TwoType := if isYes then type else type.flip

/-- `expr_trans_compare` with "y" or "n" -/
def exprTransCompare (isYes : Bool) : CompType → Expr → Expr
  | type, .two type' e1 e2 =>
    allocUnequal type (.two (compareTwo isYes type') (exprTransCompare isYes .equal e1)
      (exprTransCompare isYes .equal e2))
  | type, .not e => exprTransCompare isYes type.flip e
  | type, .comp type' s1 s2 =>
    match type, isYes with
    | .equal, true | .unequal, false => .comp type' s1 s2
    | .equal, false | .unequal, true => .not (.comp type' s1 s2)
  | type, .symbol s => .comp type s (ynSymbol isYes)

/-- `expr_trans_compare`, of a dependency that may be missing -/
def exprTransCompareOpt (isYes : Bool) (type : CompType) : Option Expr → Expr
  | none => allocUnequal type (.symbol (ynSymbol isYes))
  | some e => exprTransCompare isYes type e

/-- `expr_contains_symbol` -/
def exprContainsSymbol : Expr → Symbol → Bool
  | .two _ e1 e2, sym => exprContainsSymbol e1 sym || exprContainsSymbol e2 sym
  | .symbol s, sym => s == sym
  | .comp _ s1 s2, sym => s1 == sym || s2 == sym
  | .not e, sym => exprContainsSymbol e sym

/-- `expr_depends_symbol` -/
def exprDependsSymbol : Expr → Symbol → Bool
  | .two .and e1 e2, sym => exprDependsSymbol e1 sym || exprDependsSymbol e2 sym
  | .symbol s, sym => s == sym
  | .comp .equal s1 s2, sym => s1 == sym && (s2 == symbolYes || s2 == symbolMod)
  | .comp .unequal s1 s2, sym => s1 == sym && s2 == symbolNo
  | _, _ => false

/-- `expr_trans_bool` -/
def exprTransBool (T : Table) : Expr → Expr
  | .two type e1 e2 => .two type (exprTransBool T e1) (exprTransBool T e2)
  | .not e => .not (exprTransBool T e)
  | .comp .unequal s1 s2 =>
    if T.type s1 = .tristate ∧ s2 = symbolNo then .symbol s1 else .comp .unequal s1 s2
  | e => e

/-! ## What the answers mean -/

section
variable {T : Table}

/-- Every symbol that stands for a value has one: it is a boolean, a tristate or a constant
"y", "m" or "n". -/
def Expr.Typed (T : Table) : Expr → Prop
  | .symbol s => (T.type s = .boolean ∨ T.type s = .tristate) ∨ s.IsYmn
  | .comp .. => True
  | .not e => e.Typed T
  | .two _ e1 e2 => e1.Typed T ∧ e2.Typed T

/-- The value of a comparison with "y" or "n". -/
def compared (isYes : Bool) (type : CompType) (t : Tristate) : Tristate :=
  match type, isYes with
  | .equal, true | .unequal, false => t
  | .equal, false | .unequal, true => exprNot t

theorem Decides.not {a b : Tristate} (h : Decides a b) : Decides (exprNot a) (exprNot b) := by
  intro ha
  have hne : a ≠ .mod := by
    rintro rfl
    exact ha rfl
  rw [h hne]

theorem Decides.op₂ (type : TwoType) {a b a' b' : Tristate} (h : Decides a b)
    (h' : Decides a' b') : Decides (type.op a a') (type.op b b') := by
  refine compatible_decides.trans (compatible_decides.op type a' h) ?_
  rw [type.op_comm b a', type.op_comm b b']
  exact compatible_decides.op type b h'

theorem symbol_compared (V : Values T) (isYes : Bool) (type : CompType) {s : Symbol}
    (hs : (T.type s = .boolean ∨ T.type s = .tristate) ∨ s.IsYmn) :
    Decides (compared isYes type (V.tri s)) (Expr.value V (.comp type s (ynSymbol isYes))) := by
  obtain hs | hs := hs
  · cases isYes <;>
      simp only [ynSymbol, symbolYes, symbolNo, if_true, if_false, Bool.false_eq_true,
        comp_const_value V hs]
    · cases V.tri s <;> cases type <;> intro h <;> first | rfl | exact absurd rfl h
    · cases V.tri s <;> cases type <;> intro h <;> first | rfl | exact absurd rfl h
  · obtain rfl | rfl | rfl := hs
    · rw [V.yes_tri]
      cases isYes <;> cases type <;> intro _ <;>
        simp [Expr.value, ynSymbol, symbolYes, symbolNo] <;> rfl
    · rw [V.mod_tri]
      intro h
      cases isYes <;> cases type <;> exact absurd rfl h
    · rw [V.no_tri]
      cases isYes <;> cases type <;> intro _ <;>
        simp [Expr.value, ynSymbol, symbolYes, symbolNo] <;> rfl

theorem compared_flip (isYes : Bool) (type : CompType) (t : Tristate) :
    compared isYes type.flip t = compared isYes type (exprNot t) := by
  cases isYes <;> cases type <;> cases t <;> rfl

theorem compared_two (V : Values T) (isYes : Bool) (type : CompType) (type' : TwoType)
    {e1 e2 : Expr} {a b : Tristate} (h1 : Decides (compared isYes .equal a) (e1.value V))
    (h2 : Decides (compared isYes .equal b) (e2.value V)) :
    Decides (compared isYes type (type'.op a b))
      ((allocUnequal type (.two (compareTwo isYes type') e1 e2)).value V) := by
  have hboth : Decides (compared isYes .equal (type'.op a b))
      ((compareTwo isYes type').op (e1.value V) (e2.value V)) := by
    cases isYes with
    | true => exact h1.op₂ type' h2
    | false =>
      have h := h1.op₂ type'.flip h2
      rw [compared, compared, type'.op_flip] at h
      exact h
  cases type with
  | equal => exact hboth
  | unequal =>
    have h := hboth.not
    cases isYes with
    | true => exact h
    | false =>
      rw [compared, exprNot_not] at h
      exact h

/-- What a dependency says of its symbols is its comparison, unless it is undecided itself. -/
theorem exprTransCompare_decides (V : Values T) (isYes : Bool) (type : CompType) {e : Expr}
    (he : e.Typed T) :
    Decides (compared isYes type (e.value V)) ((exprTransCompare isYes type e).value V) := by
  induction e generalizing type with
  | symbol s => exact symbol_compared V isYes type he
  | comp type' s1 s2 =>
    cases type <;> cases isYes <;> exact compatible_decides.refl _
  | not e ih =>
    rw [exprTransCompare, Expr.value, ← compared_flip]
    exact ih type.flip he
  | two type' e1 e2 ih1 ih2 =>
    rw [exprTransCompare, Expr.value]
    exact compared_two V isYes type type' (ih1 .equal he.1) (ih2 .equal he.2)

/-- A missing dependency is "y". -/
theorem exprTransCompareOpt_decides (V : Values T) (isYes : Bool) (type : CompType)
    {e : Option Expr} (he : ∀ x ∈ e, x.Typed T) :
    Decides (compared isYes type (exprCalcValue V e))
      ((exprTransCompareOpt isYes type e).value V) := by
  cases e with
  | none =>
    cases isYes <;> cases type <;> intro _ <;>
      simp [exprTransCompareOpt, allocUnequal, ynSymbol, Expr.value, V.yes_tri, V.no_tri] <;> rfl
  | some e => exact exprTransCompare_decides V isYes type (he e rfl)

/-- A dependency that names a symbol so does not hold without it. -/
theorem exprDependsSymbol_holds (V : Values T) {e : Expr} {sym : Symbol}
    (hs : T.type sym = .boolean ∨ T.type sym = .tristate) (h : exprDependsSymbol e sym = true)
    (he : e.value V ≠ .no) : V.tri sym ≠ .no := by
  induction e with
  | symbol s =>
    rw [exprDependsSymbol, beq_iff_eq] at h
    rwa [← h]
  | comp type s1 s2 =>
    cases type with
    | equal =>
      simp only [exprDependsSymbol, Bool.and_eq_true, Bool.or_eq_true, beq_iff_eq] at h
      -- `sym = y` and `sym = m` need a value other than `n`
      obtain ⟨rfl, rfl | rfl⟩ := h
      · rw [symbolYes, comp_const_value V hs] at he
        cases ht : V.tri s1 <;> rw [ht] at he <;> first | exact absurd rfl he | decide
      · rw [symbolMod, comp_const_value V hs] at he
        cases ht : V.tri s1 <;> rw [ht] at he <;> first | exact absurd rfl he | decide
    | unequal =>
      simp only [exprDependsSymbol, Bool.and_eq_true, beq_iff_eq] at h
      obtain ⟨rfl, rfl⟩ := h
      rw [symbolNo, comp_const_value V hs] at he
      cases ht : V.tri s1 <;> rw [ht] at he <;> first | exact absurd rfl he | decide
  | not e ih => cases h
  | two type e1 e2 ih1 ih2 =>
    cases type with
    | or => cases h
    | and =>
      simp only [exprDependsSymbol, Bool.or_eq_true] at h
      rw [Expr.value] at he
      obtain h | h := h
      · apply ih1 h
        intro hno
        rw [hno] at he
        exact he (TwoType.zero_op .and _)
      · apply ih2 h
        intro hno
        rw [hno] at he
        exact he (TwoType.op_zero .and _)

end
end Lichee.Kconfig

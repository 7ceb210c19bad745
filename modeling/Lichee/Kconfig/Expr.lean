import Lichee.Base.CStr
import Lichee.Base.Factor
import Mathlib.Order.Basic
import Mathlib.Order.Lattice
import Mathlib.Order.Defs.LinearOrder

/- Dependency expressions (package/config/expr.h, expr.c). An expression has one of three
   values; `&&` is the smaller and `||` the greater of two. The symbols it names have the
   values a `Values` gives them, which holds what the evaluation of a symbol guarantees: a
   boolean symbol is never "m", and a constant's text is its name. -/
namespace Lichee.Kconfig
open Base

/-! ## Values -/

inductive Tristate
  | no
  | mod
  | yes
  deriving DecidableEq, Repr

namespace Tristate

/-- The number the enumeration gives a value. -/
def toNat : Tristate → Nat
  | no => 0
  | mod => 1
  | yes => 2

theorem toNat_injective : Function.Injective toNat := by
  intro a b h
  cases a <;> cases b <;> first | rfl | cases h

instance : LinearOrder Tristate := LinearOrder.lift' toNat toNat_injective

end Tristate

/-- `EXPR_NOT` -/
def exprNot : Tristate → Tristate
  | .no => .yes
  | .mod => .mod
  | .yes => .no

/-! ## Symbols -/

inductive SymbolType
  | unknown
  | boolean
  | tristate
  | int
  | hex
  | string
  | other
  deriving DecidableEq, Repr

/-- A symbol of `symbol_hash`: `sym_lookup` has one for each name of a constant, one for each name
of an option and one for each name of a choice block, and makes a new one for a choice block without
a name. -/
inductive Symbol
  | const (name : List UInt8)
  | config (name : List UInt8)
  | choice (id : Nat)
  deriving DecidableEq, Repr

def symbolYes : Symbol := .const (ascii "y")
def symbolMod : Symbol := .const (ascii "m")
def symbolNo : Symbol := .const (ascii "n")

/-- `flags & SYMBOL_CONST` -/
def Symbol.isConst : Symbol → Bool
  | .const _ => true
  | _ => false

/-- The types of the symbols, which only an option's or a choice's own entry sets. -/
structure Table where
  type : Symbol → SymbolType
  const_type : ∀ name, type (.const name) = .unknown

/-- Every option is a tristate. -/
def tristates : Table where
  type
    | .const _ => .unknown
    | _ => .tristate
  const_type _ := rfl

/-- The text of a value. -/
def tristateText : Tristate → List UInt8
  | .no => ascii "n"
  | .mod => ascii "m"
  | .yes => ascii "y"

/-- The values of the symbols once `sym_calc_value` was called for them: `tri` is `curr.tri`
and `val` is `curr.val`. -/
structure Values (T : Table) where
  tri : Symbol → Tristate
  val : Symbol → List UInt8
  yes_tri : tri symbolYes = .yes
  mod_tri : tri symbolMod = .mod
  no_tri : tri symbolNo = .no
  const_val : ∀ name, val (.const name) = name
  boolean_tri : ∀ s, T.type s = .boolean → tri s ≠ .mod

/-- Every option is "y". -/
def allYes : Values tristates where
  tri s := if s = symbolNo then .no else if s = symbolMod then .mod else .yes
  val
    | .const name => name
    | _ => []
  yes_tri := rfl
  mod_tri := rfl
  no_tri := rfl
  const_val _ := rfl
  boolean_tri s h := by cases s <;> cases h

section
variable {T : Table}

/-- `sym_get_string_value` -/
def Values.symGetStringValue (V : Values T) (s : Symbol) : List UInt8 :=
  match T.type s with
  | .boolean | .tristate => tristateText (V.tri s)
  | _ => V.val s

/-! ## Expressions -/

/-- The comparisons, `E_EQUAL` and `E_UNEQUAL`. -/
inductive CompType
  | equal
  | unequal
  deriving DecidableEq, Repr

/-- The connectives, `E_OR` and `E_AND`. -/
inductive TwoType
  | or
  | and
  deriving DecidableEq, Repr

/-- A dependency expression, as the `expr_alloc_` functions build it. -/
inductive Expr
  | symbol (sym : Symbol)
  | not (ce : Expr)
  | comp (type : CompType) (s1 s2 : Symbol)
  | two (type : TwoType) (e1 e2 : Expr)
  deriving DecidableEq, Repr

/-- The value of a connective. -/
def TwoType.op : TwoType → Tristate → Tristate → Tristate
  | .or => fun dep1 dep2 => if dep1 > dep2 then dep1 else dep2
  | .and => fun dep1 dep2 => if dep1 < dep2 then dep1 else dep2

/-- The value of a comparison of two strings. -/
def CompType.value : CompType → Bool → Tristate
  | .equal, same => if same then .yes else .no
  | .unequal, same => if same then .no else .yes

/-- `expr_calc_value` of an expression there is -/
def Expr.value (V : Values T) : Expr → Tristate
  | .symbol s => V.tri s
  | .two type e1 e2 => type.op (e1.value V) (e2.value V)
  | .not e => exprNot (e.value V)
  | .comp type s1 s2 => type.value (V.symGetStringValue s1 == V.symGetStringValue s2)

/-- `expr_calc_value` -/
def exprCalcValue (V : Values T) : Option Expr → Tristate
  | none => .yes
  | some e => e.value V

/-- `expr_alloc_and` and `expr_alloc_or` -/
def exprAllocTwo (type : TwoType) : Option Expr → Option Expr → Option Expr
  | none, e2 => e2
  | some e1, none => some e1
  | some e1, some e2 => some (.two type e1 e2)

/-- `expr_is_yes` -/
def exprIsYes (e : Option Expr) : Bool := e == none || e == some (.symbol symbolYes)

/-! ## The constants "y" and "n" -/

/-- The constant a connective can do without: "n" in a disjunction, "y" in a conjunction. -/
def TwoType.unit : TwoType → Symbol
  | .or => symbolNo
  | .and => symbolYes

/-- The constant that decides a connective. -/
def TwoType.zero : TwoType → Symbol
  | .or => symbolYes
  | .and => symbolNo

/-- A connective of `expr_eliminate_yn`, once its operands are done. -/
def joinYn (type : TwoType) (e1 e2 : Expr) : Expr :=
  if e1 = .symbol type.zero then .symbol type.zero
  else if e1 = .symbol type.unit then e2
  else if e2 = .symbol type.zero then .symbol type.zero
  else if e2 = .symbol type.unit then e1
  else .two type e1 e2

def exprEliminateYn : Expr → Expr
  | .two type e1 e2 => joinYn type (exprEliminateYn e1) (exprEliminateYn e2)
  | e => e

/-! ## The algebra of the connectives -/

namespace TwoType

theorem op_or (a b : Tristate) : op .or a b = max a b := by
  cases a <;> cases b <;> rfl

theorem op_and (a b : Tristate) : op .and a b = min a b := by
  cases a <;> cases b <;> rfl

instance (type : TwoType) : Std.Associative type.op where
  assoc a b c := by cases type <;> cases a <;> cases b <;> cases c <;> rfl

instance (type : TwoType) : Std.Commutative type.op where
  comm a b := by cases type <;> cases a <;> cases b <;> rfl

theorem op_assoc (type : TwoType) (a b c : Tristate) :
    type.op (type.op a b) c = type.op a (type.op b c) :=
  Std.Associative.assoc a b c

theorem op_comm (type : TwoType) (a b : Tristate) : type.op a b = type.op b a :=
  Std.Commutative.comm a b

/-- The value of the unit. -/
def unitVal : TwoType → Tristate
  | .or => .no
  | .and => .yes

/-- The value of the zero. -/
def zeroVal : TwoType → Tristate
  | .or => .yes
  | .and => .no

instance (type : TwoType) : Std.LawfulIdentity type.op type.unitVal where
  left_id a := by cases type <;> cases a <;> rfl
  right_id a := by cases type <;> cases a <;> rfl

@[simp] theorem op_self (type : TwoType) (a : Tristate) : type.op a a = a := by
  cases type <;> cases a <;> rfl

@[simp] theorem zero_op (type : TwoType) (a : Tristate) :
    type.op type.zeroVal a = type.zeroVal := by
  cases type <;> cases a <;> rfl

@[simp] theorem op_zero (type : TwoType) (a : Tristate) :
    type.op a type.zeroVal = type.zeroVal := by
  cases type <;> cases a <;> rfl

@[simp] theorem unit_op (type : TwoType) (a : Tristate) : type.op type.unitVal a = a := by
  cases type <;> cases a <;> rfl

@[simp] theorem op_unit (type : TwoType) (a : Tristate) : type.op a type.unitVal = a := by
  cases type <;> cases a <;> rfl

theorem op_mono (type : TwoType) (c : Tristate) : Monotone (type.op · c) := by
  intro a b h
  cases type with
  | or => simpa only [op_or] using max_le_max_right c h
  | and => simpa only [op_and] using min_le_min_right c h

end TwoType

@[simp] theorem exprNot_not (a : Tristate) : exprNot (exprNot a) = a := by
  cases a <;> rfl

@[simp] theorem value_unit (V : Values T) (type : TwoType) :
    Expr.value V (.symbol type.unit) = type.unitVal := by
  cases type with
  | or => exact V.no_tri
  | and => exact V.yes_tri

@[simp] theorem value_zero (V : Values T) (type : TwoType) :
    Expr.value V (.symbol type.zero) = type.zeroVal := by
  cases type with
  | or => exact V.yes_tri
  | and => exact V.no_tri

/-! ## What `expr_eliminate_yn` keeps -/

theorem joinYn_value (V : Values T) (type : TwoType) (e1 e2 : Expr) :
    (joinYn type e1 e2).value V = type.op (e1.value V) (e2.value V) := by
  unfold joinYn
  split_ifs with h₁ h₂ h₃ h₄
  · simp [h₁]
  · simp [h₂]
  · simp [h₃]
  · simp [h₄]
  · rfl

theorem exprEliminateYn_value (V : Values T) (e : Expr) :
    (exprEliminateYn e).value V = e.value V := by
  induction e with
  | symbol s => rfl
  | not e ih => rfl
  | comp type s1 s2 => rfl
  | two type e1 e2 ih1 ih2 => rw [exprEliminateYn, joinYn_value, ih1, ih2, Expr.value]

/-- The number of nodes. -/
def Expr.size : Expr → Nat
  | .symbol _ => 1
  | .comp .. => 1
  | .not e => e.size + 1
  | .two _ e1 e2 => e1.size + e2.size + 1

theorem Expr.size_pos (e : Expr) : 0 < e.size := by
  cases e <;> simp [size]

theorem joinYn_size (type : TwoType) (e1 e2 : Expr) :
    (joinYn type e1 e2).size ≤ e1.size + e2.size + 1 := by
  have := e1.size_pos
  unfold joinYn
  split_ifs
  · rw [Expr.size]
    omega
  · omega
  · rw [Expr.size]
    omega
  · omega
  · exact le_refl _

theorem exprEliminateYn_size (e : Expr) : (exprEliminateYn e).size ≤ e.size := by
  induction e with
  | symbol s => exact le_refl _
  | not e ih => exact le_refl _
  | comp type s1 s2 => exact le_refl _
  | two type e1 e2 ih1 ih2 =>
    have := joinYn_size type (exprEliminateYn e1) (exprEliminateYn e2)
    rw [exprEliminateYn, Expr.size]
    omega

/-- The constants "y" and "n" as expressions. -/
def Expr.IsYn (e : Expr) : Prop := e = .symbol symbolYes ∨ e = .symbol symbolNo

/-- No connective has one of the constants "y" and "n" as its operand. -/
def Expr.YnFree : Expr → Prop
  | .two _ e1 e2 => ¬ e1.IsYn ∧ ¬ e2.IsYn ∧ e1.YnFree ∧ e2.YnFree
  | _ => True

theorem not_isYn {type : TwoType} {e : Expr} (hz : e ≠ .symbol type.zero)
    (hu : e ≠ .symbol type.unit) : ¬ e.IsYn := by
  intro h
  cases type <;> cases h <;> contradiction

end
end Lichee.Kconfig

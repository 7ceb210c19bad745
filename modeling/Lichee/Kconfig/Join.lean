import Lichee.Kconfig.Equal
import Lichee.Kconfig.Transform

/- Two operands of a connective as one (package/config/expr.c, `expr_join_or` and
   `expr_join_and`). Beside operands that are equal, these know the tests of one symbol against
   the constants: what replaces the two has the value of their connective for each of the three
   values a symbol can have (`exprJoin_value`). -/
namespace Lichee.Kconfig
open Base

/-! ## The tests of a symbol -/

/-- `e->left.sym` of a symbol or a comparison -/
def leftSym : Expr → Option Symbol
  | .symbol s => some s
  | .comp _ s _ => some s
  | _ => none

/-- `sym1` -/
def joinSym1 : Expr → Option Symbol
  | .not e => leftSym e
  | e => leftSym e

/-- `sym2`: behind a negation only a symbol is looked at. -/
def joinSym2 : Expr → Option Symbol
  | .not (.symbol s) => some s
  | .not _ => none
  | e => leftSym e

def Expr.isSymbol : Expr → Bool
  | .symbol _ => true
  | _ => false

def Expr.isNotSymbol : Expr → Bool
  | .not (.symbol _) => true
  | _ => false

/-- `e->type == type && e->right.sym == s` -/
def isComp (type : CompType) (s : Symbol) : Expr → Bool
  | .comp type' _ s2 => type' == type && s2 == s
  | _ => false

/-- One of the two passes the one test and the other the other. -/
def eitherWay (p q : Expr → Bool) (e1 e2 : Expr) : Bool := p e1 && q e2 || p e2 && q e1

/-- The symbol both operands test, where it is a boolean or a tristate. -/
def joinSym (T : Table) (e1 e2 : Expr) : Option Symbol := do
  let sym1 ← joinSym1 e1
  let sym2 ← joinSym2 e2
  if sym1 = sym2 ∧ (T.type sym1 = .boolean ∨ T.type sym1 = .tristate) then some sym1 else none

/-- The rules of `expr_join_or`. -/
def joinOrRules (T : Table) (sym1 : Symbol) (e1 e2 : Expr) : Option Expr :=
  if T.type sym1 = .tristate ∧
      eitherWay (isComp .equal symbolYes) (isComp .equal symbolMod) e1 e2 then
    some (.comp .unequal sym1 symbolNo)
  else if T.type sym1 = .tristate ∧
      eitherWay (isComp .equal symbolYes) (isComp .equal symbolNo) e1 e2 then
    some (.comp .unequal sym1 symbolMod)
  else if T.type sym1 = .tristate ∧
      eitherWay (isComp .equal symbolMod) (isComp .equal symbolNo) e1 e2 then
    some (.comp .unequal sym1 symbolYes)
  else if T.type sym1 = .boolean ∧ eitherWay Expr.isNotSymbol Expr.isSymbol e1 e2 then
    some (.symbol symbolYes)
  else none

/-- `a='b'` and `a!='c'` for two constants. -/
def joinEqualUnequal (sym1 b c : Symbol) : Option Expr :=
  if c.isConst ∧ b.isConst then
    some (if b ≠ c then .comp .equal sym1 b else .symbol symbolNo)
  else none

/-- The first rules of `expr_join_and` for a tristate. -/
def joinConstants (sym1 : Symbol) : Expr → Expr → Option Expr
  | .comp .equal _ b, .comp .unequal _ c => joinEqualUnequal sym1 b c
  | .comp .unequal _ c, .comp .equal _ b => joinEqualUnequal sym1 b c
  | _, _ => none

/-- The other rules of `expr_join_and` for a tristate. -/
def joinUnequals (sym1 : Symbol) (e1 e2 : Expr) : Option Expr :=
  if eitherWay (isComp .unequal symbolYes) (isComp .unequal symbolNo) e1 e2 then
    some (.comp .equal sym1 symbolMod)
  else if eitherWay (isComp .unequal symbolYes) (isComp .unequal symbolMod) e1 e2 then
    some (.comp .equal sym1 symbolNo)
  else if eitherWay (isComp .unequal symbolMod) (isComp .unequal symbolNo) e1 e2 then
    some (.comp .equal sym1 symbolYes)
  else none

/-- The rules of `expr_join_and`. -/
def joinAndRules (T : Table) (sym1 : Symbol) (e1 e2 : Expr) : Option Expr :=
  if eitherWay Expr.isSymbol (isComp .equal symbolYes) e1 e2 then
    some (.comp .equal sym1 symbolYes)
  else if eitherWay Expr.isSymbol (isComp .unequal symbolNo) e1 e2 then some (.symbol sym1)
  else if eitherWay Expr.isSymbol (isComp .unequal symbolMod) e1 e2 then
    some (.comp .equal sym1 symbolYes)
  else if T.type sym1 = .tristate then (joinConstants sym1 e1 e2).or (joinUnequals sym1 e1 e2)
  else none

/-- `expr_join_or` and `expr_join_and`; the value inside is `NULL` where there is no rule. -/
def exprJoin (T : Table) (n : Nat) (type : TwoType) (e1 e2 : Expr) : Option (Option Expr) :=
  (exprEq n e1 e2).map fun eq =>
    if eq then some e1
    else match joinSym T e1 e2, type with
      | some sym1, .or => joinOrRules T sym1 e1 e2
      | some sym1, .and => joinAndRules T sym1 e1 e2
      | none, _ => none

/-! ## The values -/

section
variable {T : Table}

/-- What the two operands may be. -/
inductive Tests (s : Symbol) : Expr → Prop
  | symbol : Tests s (.symbol s)
  | comp (type : CompType) (s2 : Symbol) : Tests s (.comp type s s2)
  | not {e : Expr} (h : Tests s e) : Tests s (.not e)

theorem leftSym_tests {e : Expr} {s : Symbol} (h : leftSym e = some s) : Tests s e := by
  cases e with
  | symbol s' =>
    cases h
    exact .symbol
  | comp type s' s2 =>
    cases h
    exact .comp type s2
  | not e => cases h
  | two type e1 e2 => cases h

theorem joinSym1_tests {e : Expr} {s : Symbol} (h : joinSym1 e = some s) : Tests s e := by
  cases e with
  | not e => exact .not (leftSym_tests h)
  | _ => exact leftSym_tests h

theorem joinSym2_tests {e : Expr} {s : Symbol} (h : joinSym2 e = some s) : Tests s e := by
  cases e with
  | not e =>
    cases e with
    | symbol s' =>
      cases h
      exact .not .symbol
    | _ => cases h
  | _ => exact leftSym_tests h

theorem joinSym_tests {e1 e2 : Expr} {s : Symbol} (h : joinSym T e1 e2 = some s) :
    Tests s e1 ∧ Tests s e2 ∧ (T.type s = .boolean ∨ T.type s = .tristate) := by
  simp only [joinSym, Option.bind_eq_bind, Option.bind_eq_some_iff] at h
  obtain ⟨s1, h₁, s2, h₂, h⟩ := h
  split_ifs at h with hs
  cases h
  obtain ⟨rfl, ht⟩ := hs
  exact ⟨joinSym1_tests h₁, joinSym2_tests h₂, ht⟩

theorem isSymbol_tests {e : Expr} {s : Symbol} (he : Tests s e) (h : e.isSymbol = true) :
    e = .symbol s := by
  cases he with
  | symbol => rfl
  | comp type s2 => cases h
  | not he => cases h

theorem isNotSymbol_tests {e : Expr} {s : Symbol} (he : Tests s e) (h : e.isNotSymbol = true) :
    e = .not (.symbol s) := by
  cases he with
  | symbol => cases h
  | comp type s2 => cases h
  | not he =>
    cases he with
    | symbol => rfl
    | comp type s2 => cases h
    | not he => cases h

theorem isComp_tests {e : Expr} {type : CompType} {s s2 : Symbol} (he : Tests s e)
    (h : isComp type s2 e = true) : e = .comp type s s2 := by
  cases he with
  | symbol => cases h
  | comp type' s2' =>
    simp only [isComp, Bool.and_eq_true, beq_iff_eq] at h
    rw [h.1, h.2]
  | not he => cases h

/-- Two tests of one symbol, one of each kind, combine to the value of the rule. -/
theorem eitherWay_value {V : Values T} {type : TwoType} {p q : Expr → Bool} {e1 e2 a b : Expr}
    {s : Symbol} {v : Tristate} (h : eitherWay p q e1 e2 = true) (h₁ : Tests s e1)
    (h₂ : Tests s e2) (hp : ∀ e, Tests s e → p e = true → e = a)
    (hq : ∀ e, Tests s e → q e = true → e = b) (hv : v = type.op (a.value V) (b.value V)) :
    v = type.op (e1.value V) (e2.value V) := by
  simp only [eitherWay, Bool.or_eq_true, Bool.and_eq_true] at h
  obtain ⟨ha, hb⟩ | ⟨ha, hb⟩ := h
  · rw [hp e1 h₁ ha, hq e2 h₂ hb, hv]
  · rw [hp e2 h₂ ha, hq e1 h₁ hb, hv, type.op_comm]

/-- The text of a boolean or a tristate. -/
theorem tristate_text (V : Values T) {s : Symbol}
    (hs : T.type s = .boolean ∨ T.type s = .tristate) :
    V.symGetStringValue s = tristateText (V.tri s) := by
  unfold Values.symGetStringValue
  obtain hs | hs := hs <;> rw [hs]

/-- The value of a comparison with a constant. -/
theorem comp_const_value (V : Values T) {s : Symbol}
    (hs : T.type s = .boolean ∨ T.type s = .tristate) (type : CompType) (name : List UInt8) :
    Expr.value V (.comp type s (.const name)) = type.value (tristateText (V.tri s) == name) := by
  rw [Expr.value, tristate_text V hs, const_text]

theorem joinOrRules_value (V : Values T) {s : Symbol} {e1 e2 tmp : Expr}
    (hs : T.type s = .boolean ∨ T.type s = .tristate) (h₁ : Tests s e1) (h₂ : Tests s e2)
    (h : joinOrRules T s e1 e2 = some tmp) :
    tmp.value V = TwoType.or.op (e1.value V) (e2.value V) := by
  unfold joinOrRules at h
  have hcomp := comp_const_value V hs
  split_ifs at h with hym hyn hmn hnot
  · cases h
    apply eitherWay_value hym.2 h₁ h₂ (fun e => isComp_tests) (fun e => isComp_tests)
    rw [symbolYes, symbolMod, symbolNo, hcomp, hcomp, hcomp]
    cases V.tri s <;> rfl
  · cases h
    apply eitherWay_value hyn.2 h₁ h₂ (fun e => isComp_tests) (fun e => isComp_tests)
    rw [symbolYes, symbolMod, symbolNo, hcomp, hcomp, hcomp]
    cases V.tri s <;> rfl
  · cases h
    apply eitherWay_value hmn.2 h₁ h₂ (fun e => isComp_tests) (fun e => isComp_tests)
    rw [symbolYes, symbolMod, symbolNo, hcomp, hcomp, hcomp]
    cases V.tri s <;> rfl
  · cases h
    apply eitherWay_value hnot.2 h₁ h₂ (fun e => isNotSymbol_tests) (fun e => isSymbol_tests)
    -- a boolean symbol is "y" or "n", and one of the two operands is "y" either way
    have hmod := V.boolean_tri s hnot.1
    simp only [Expr.value, V.yes_tri]
    cases hv : V.tri s with
    | no => rfl
    | mod => exact absurd hv hmod
    | yes => rfl

theorem joinEqualUnequal_value (V : Values T) {s b c : Symbol} {tmp : Expr}
    (h : joinEqualUnequal s b c = some tmp) :
    tmp.value V = TwoType.and.op (Expr.value V (.comp .equal s b))
      (Expr.value V (.comp .unequal s c)) := by
  unfold joinEqualUnequal at h
  split_ifs at h with hconst hbc
  · cases h
    cases b with
    | const b =>
      cases c with
      | const c =>
        -- the symbol's text is one constant's name and so not the other's
        have hne : b ≠ c := fun h => hbc (by rw [h])
        simp only [Expr.value, const_text]
        by_cases hb : V.symGetStringValue s = b
        · simp [hb, CompType.value, hne]
        · rw [beq_false_of_ne hb]
          exact (TwoType.zero_op .and _).symm
      | _ => simp [Symbol.isConst] at hconst
    | _ => simp [Symbol.isConst] at hconst
  · cases h
    have hb : b = c := by simpa using hbc
    subst hb
    rw [Expr.value, V.no_tri, Expr.value, Expr.value]
    cases V.symGetStringValue s == V.symGetStringValue b <;> rfl

theorem joinConstants_value (V : Values T) {s : Symbol} {e1 e2 tmp : Expr} (h₁ : Tests s e1)
    (h₂ : Tests s e2) (h : joinConstants s e1 e2 = some tmp) :
    tmp.value V = TwoType.and.op (e1.value V) (e2.value V) := by
  unfold joinConstants at h
  split at h
  · cases h₁
    cases h₂
    exact joinEqualUnequal_value V h
  · cases h₁
    cases h₂
    rw [TwoType.op_comm]
    exact joinEqualUnequal_value V h
  · cases h

theorem joinUnequals_value (V : Values T) {s : Symbol} {e1 e2 tmp : Expr}
    (hs : T.type s = .boolean ∨ T.type s = .tristate) (h₁ : Tests s e1) (h₂ : Tests s e2)
    (h : joinUnequals s e1 e2 = some tmp) :
    tmp.value V = TwoType.and.op (e1.value V) (e2.value V) := by
  unfold joinUnequals at h
  have hcomp := comp_const_value V hs
  split_ifs at h with hyn hym hmn
  · cases h
    apply eitherWay_value hyn h₁ h₂ (fun e => isComp_tests) (fun e => isComp_tests)
    rw [symbolYes, symbolMod, symbolNo, hcomp, hcomp, hcomp]
    cases V.tri s <;> rfl
  · cases h
    apply eitherWay_value hym h₁ h₂ (fun e => isComp_tests) (fun e => isComp_tests)
    rw [symbolYes, symbolMod, symbolNo, hcomp, hcomp, hcomp]
    cases V.tri s <;> rfl
  · cases h
    apply eitherWay_value hmn h₁ h₂ (fun e => isComp_tests) (fun e => isComp_tests)
    rw [symbolYes, symbolMod, symbolNo, hcomp, hcomp, hcomp]
    cases V.tri s <;> rfl

theorem joinAndRules_value (V : Values T) {s : Symbol} {e1 e2 tmp : Expr}
    (hs : T.type s = .boolean ∨ T.type s = .tristate) (h₁ : Tests s e1) (h₂ : Tests s e2)
    (h : joinAndRules T s e1 e2 = some tmp) :
    tmp.value V = TwoType.and.op (e1.value V) (e2.value V) := by
  unfold joinAndRules at h
  have hcomp := comp_const_value V hs
  split_ifs at h with hy hn hm ht
  · cases h
    apply eitherWay_value hy h₁ h₂ (fun e => isSymbol_tests) (fun e => isComp_tests)
    rw [symbolYes, hcomp, Expr.value]
    cases V.tri s <;> rfl
  · cases h
    apply eitherWay_value hn h₁ h₂ (fun e => isSymbol_tests) (fun e => isComp_tests)
    rw [symbolNo, hcomp, Expr.value]
    cases V.tri s <;> rfl
  · cases h
    apply eitherWay_value hm h₁ h₂ (fun e => isSymbol_tests) (fun e => isComp_tests)
    rw [symbolYes, symbolMod, hcomp, hcomp, Expr.value]
    cases V.tri s <;> rfl
  · rw [Option.or_eq_some_iff] at h
    obtain h | ⟨-, h⟩ := h
    · exact joinConstants_value V h₁ h₂ h
    · exact joinUnequals_value V hs h₁ h₂ h

/-- What replaces two operands of a connective has the value of the connective. -/
theorem exprJoin_value (V : Values T) {n : Nat} {type : TwoType} {e1 e2 tmp : Expr}
    (h : exprJoin T n type e1 e2 = some (some tmp)) :
    tmp.value V = type.op (e1.value V) (e2.value V) := by
  simp only [exprJoin, Option.map_eq_some_iff] at h
  obtain ⟨eq, heq, h⟩ := h
  cases eq with
  | true =>
    cases h
    rw [exprEq_value heq V, TwoType.op_self]
  | false =>
    cases hs : joinSym T e1 e2 with
    | none => simp [hs] at h
    | some s =>
      obtain ⟨h₁, h₂, ht⟩ := joinSym_tests hs
      cases type with
      | or => exact joinOrRules_value V ht h₁ h₂ (by simpa [hs] using h)
      | and => exact joinAndRules_value V ht h₁ h₂ (by simpa [hs] using h)

/-! ## What replaces the operands -/

/-- A symbol or a comparison. -/
def Expr.IsTest : Expr → Prop
  | .symbol _ => True
  | .comp .. => True
  | _ => False

theorem isTest_size {e : Expr} (h : e.IsTest) : e.size = 1 := by
  cases e with
  | symbol s => rfl
  | comp type s1 s2 => rfl
  | not e => exact h.elim
  | two type e1 e2 => exact h.elim

theorem isTest_split {e : Expr} (h : e.IsTest) (type : TwoType) : e.split type = none := by
  cases e with
  | symbol s => rfl
  | comp type s1 s2 => rfl
  | not e => exact h.elim
  | two type e1 e2 => exact h.elim

theorem joinOrRules_isTest {s : Symbol} {e1 e2 tmp : Expr}
    (h : joinOrRules T s e1 e2 = some tmp) : tmp.IsTest := by
  unfold joinOrRules at h
  split_ifs at h <;> cases h <;> trivial

theorem joinConstants_isTest {s : Symbol} {e1 e2 tmp : Expr}
    (h : joinConstants s e1 e2 = some tmp) : tmp.IsTest := by
  unfold joinConstants joinEqualUnequal at h
  split at h
  · split_ifs at h <;> cases h <;> trivial
  · split_ifs at h <;> cases h <;> trivial
  · cases h

theorem joinUnequals_isTest {s : Symbol} {e1 e2 tmp : Expr}
    (h : joinUnequals s e1 e2 = some tmp) : tmp.IsTest := by
  unfold joinUnequals at h
  split_ifs at h <;> cases h <;> trivial

theorem joinAndRules_isTest {s : Symbol} {e1 e2 tmp : Expr}
    (h : joinAndRules T s e1 e2 = some tmp) : tmp.IsTest := by
  unfold joinAndRules at h
  split_ifs at h
  · cases h
    trivial
  · cases h
    trivial
  · cases h
    trivial
  · rw [Option.or_eq_some_iff] at h
    obtain h | ⟨-, h⟩ := h
    · exact joinConstants_isTest h
    · exact joinUnequals_isTest h

/-- Two operands become the first of them or one test. -/
theorem exprJoin_cases {n : Nat} {type : TwoType} {e1 e2 tmp : Expr}
    (h : exprJoin T n type e1 e2 = some (some tmp)) : tmp = e1 ∨ tmp.IsTest := by
  simp only [exprJoin, Option.map_eq_some_iff] at h
  obtain ⟨eq, -, h⟩ := h
  cases eq with
  | true =>
    cases h
    exact Or.inl rfl
  | false =>
    right
    cases hs : joinSym T e1 e2 with
    | none => simp [hs] at h
    | some s =>
      cases type with
      | or => exact joinOrRules_isTest (by simpa [hs] using h)
      | and => exact joinAndRules_isTest (by simpa [hs] using h)

theorem exprJoin_returns (T : Table) (type : TwoType) (e1 e2 : Expr) {n : Nat}
    (hn : 4 * (e1.size + e2.size) ≤ n) : ∃ tmp, exprJoin T n type e1 e2 = some tmp := by
  obtain ⟨eq, heq⟩ := exprEq_returns e1 e2 hn
  unfold exprJoin
  rw [heq, Option.map_some]
  exact ⟨_, rfl⟩

end
end Lichee.Kconfig

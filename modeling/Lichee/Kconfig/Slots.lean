import Lichee.Kconfig.Equal

/- The places of an expression that a `struct expr **` of package/config/expr.c points at: a
   path of left and right operands down from the root. Functions that take two such pointers
   into one expression write through them. What the writes do to the value of the whole is said
   here, for places that are operands of one connective (`Below.factor`, `Operand.apart`). -/
namespace Lichee.Kconfig
open Base

inductive Side
  | left
  | right
  deriving DecidableEq, Repr

/-- What a pointer into an expression points at. -/
abbrev Slot := List Side

def Expr.get : Expr → Slot → Option Expr
  | e, [] => some e
  | .two _ e1 _, .left :: p => e1.get p
  | .two _ _ e2, .right :: p => e2.get p
  | _, _ => none

def Expr.set : Expr → Slot → Expr → Expr
  | _, [], x => x
  | .two type e1 e2, .left :: p, x => .two type (e1.set p x) e2
  | .two type e1 e2, .right :: p, x => .two type e1 (e2.set p x)
  | e, _, _ => e

@[simp] theorem get_here (e : Expr) : e.get [] = some e := by cases e <;> rfl
@[simp] theorem set_here (e x : Expr) : e.set [] x = x := by cases e <;> rfl

section
variable {type : TwoType}

@[simp] theorem get_left (e1 e2 : Expr) (p : Slot) :
    (Expr.two type e1 e2).get (.left :: p) = e1.get p := rfl
@[simp] theorem get_right (e1 e2 : Expr) (p : Slot) :
    (Expr.two type e1 e2).get (.right :: p) = e2.get p := rfl
@[simp] theorem set_left (e1 e2 x : Expr) (p : Slot) :
    (Expr.two type e1 e2).set (.left :: p) x = .two type (e1.set p x) e2 := rfl
@[simp] theorem set_right (e1 e2 x : Expr) (p : Slot) :
    (Expr.two type e1 e2).set (.right :: p) x = .two type e1 (e2.set p x) := rfl

/-! ## Places below one connective -/

variable (type) in
/-- Every connective above the place is a `type`. -/
inductive Below : Expr → Slot → Prop
  | here (e : Expr) : Below e []
  | left {e1 : Expr} (e2 : Expr) {p : Slot} (h : Below e1 p) : Below (.two type e1 e2) (.left :: p)
  | right (e1 : Expr) {e2 : Expr} {p : Slot} (h : Below e2 p) :
    Below (.two type e1 e2) (.right :: p)

theorem Below.left_of {e e1 e2 : Expr} {p : Slot} (h : Below type e p)
    (hget : e.get p = some (.two type e1 e2)) :
    Below type e (p ++ [.left]) ∧ e.get (p ++ [.left]) = some e1 := by
  induction h with
  | here e =>
    rw [get_here, Option.some.injEq] at hget
    subst hget
    exact ⟨.left e2 (.here e1), get_here e1⟩
  | left b h ih =>
    obtain ⟨hb, hg⟩ := ih hget
    exact ⟨.left b hb, hg⟩
  | right a h ih =>
    obtain ⟨hb, hg⟩ := ih hget
    exact ⟨.right a hb, hg⟩

theorem Below.right_of {e e1 e2 : Expr} {p : Slot} (h : Below type e p)
    (hget : e.get p = some (.two type e1 e2)) :
    Below type e (p ++ [.right]) ∧ e.get (p ++ [.right]) = some e2 := by
  induction h with
  | here e =>
    rw [get_here, Option.some.injEq] at hget
    subst hget
    exact ⟨.right e1 (.here e2), get_here e2⟩
  | left b h ih =>
    obtain ⟨hb, hg⟩ := ih hget
    exact ⟨.left b hb, hg⟩
  | right a h ih =>
    obtain ⟨hb, hg⟩ := ih hget
    exact ⟨.right a hb, hg⟩

theorem Below.get {e : Expr} {p : Slot} (h : Below type e p) : ∃ x, e.get p = some x := by
  induction h with
  | here e => exact ⟨e, get_here e⟩
  | left b h ih => exact ih
  | right a h ih => exact ih

theorem Below.get_set {e : Expr} {p : Slot} (h : Below type e p) (x : Expr) :
    (e.set p x).get p = some x := by
  induction h with
  | here e => simp
  | left b h ih => simpa using ih
  | right a h ih => simpa using ih

variable {T : Table}

/-- The value of the whole is the value at the place, combined with that of the rest. -/
theorem Below.factor {e x : Expr} {p : Slot} (h : Below type e p) (hget : e.get p = some x)
    (V : Values T) :
    ∃ c, e.value V = type.op (x.value V) c ∧
      ∀ y, (e.set p y).value V = type.op (y.value V) c := by
  induction h with
  | here e =>
    rw [get_here, Option.some.injEq] at hget
    subst hget
    refine ⟨type.unitVal, (type.op_unit _).symm, ?_⟩
    intro y
    rw [set_here, type.op_unit]
  | left b h ih =>
    obtain ⟨c, hc, hset⟩ := ih hget
    refine ⟨type.op c (b.value V), ?_, ?_⟩
    · rw [Expr.value, hc, type.op_assoc]
    · intro y
      rw [set_left, Expr.value, hset, type.op_assoc]
  | right a h ih =>
    obtain ⟨c, hc, hset⟩ := ih hget
    refine ⟨type.op c (a.value V), ?_, ?_⟩
    · rw [Expr.value, hc, type.op_comm, type.op_assoc]
    · intro y
      rw [set_right, Expr.value, hset, type.op_comm, type.op_assoc]

theorem Below.set_size {e x : Expr} {p : Slot} (h : Below type e p) (hget : e.get p = some x)
    (y : Expr) : (e.set p y).size + x.size = e.size + y.size := by
  induction h with
  | here e =>
    rw [get_here, Option.some.injEq] at hget
    rw [set_here, hget]
    omega
  | left b h ih =>
    have := ih hget
    rw [set_left, Expr.size, Expr.size]
    omega
  | right a h ih =>
    have := ih hget
    rw [set_right, Expr.size, Expr.size]
    omega

/-- An expression has the constants that an expression in it has. -/
theorem Below.not_ynFree {e x : Expr} {p : Slot} (h : Below type e p) (hget : e.get p = some x)
    (hx : ¬ x.YnFree) : ¬ e.YnFree := by
  induction h with
  | here e =>
    rw [get_here, Option.some.injEq] at hget
    rwa [hget]
  | left b h ih => exact fun hfree => ih hget hfree.2.2.1
  | right a h ih => exact fun hfree => ih hget hfree.2.2.2

/-- A constant that is an operand. -/
theorem Below.isYn_not_ynFree {e x : Expr} {p : Slot} (h : Below type e p)
    (hget : e.get p = some x) (hp : p ≠ []) (hx : x.IsYn) : ¬ e.YnFree := by
  induction h with
  | here e => exact absurd rfl hp
  | left b h ih =>
    intro hfree
    cases h with
    | here a =>
      rw [get_left, get_here, Option.some.injEq] at hget
      exact hfree.1 (hget ▸ hx)
    | left b' h => exact ih hget (by simp) hfree.2.2.1
    | right a' h => exact ih hget (by simp) hfree.2.2.1
  | right a h ih =>
    intro hfree
    cases h with
    | here b =>
      rw [get_right, get_here, Option.some.injEq] at hget
      exact hfree.2.1 (hget ▸ hx)
    | left b' h => exact ih hget (by simp) hfree.2.2.2
    | right a' h => exact ih hget (by simp) hfree.2.2.2

/-! ## Expressions of one shape -/

variable (type) in
/-- The connectives `type` at the root and below are in the same places. -/
inductive SameShape : Expr → Expr → Prop
  | operand {e e' : Expr} (h : e.split type = none) (h' : e'.split type = none) : SameShape e e'
  | two {e1 e2 e1' e2' : Expr} (h1 : SameShape e1 e1') (h2 : SameShape e2 e2') :
    SameShape (.two type e1 e2) (.two type e1' e2')

theorem split_two (e1 e2 : Expr) : (Expr.two type e1 e2).split type = some (e1, e2) := by
  simp [Expr.split]

theorem split_not {type' : TwoType} (h : type' ≠ type) (e1 e2 : Expr) :
    (Expr.two type' e1 e2).split type = none := by
  simp [Expr.split, h]

theorem SameShape.refl (e : Expr) : SameShape type e e := by
  induction e with
  | two type' e1 e2 ih1 ih2 =>
    by_cases h : type' = type
    · subst h
      exact .two ih1 ih2
    · exact .operand (split_not h e1 e2) (split_not h e1 e2)
  | _ => exact .operand rfl rfl

theorem SameShape.trans {e e' e'' : Expr} (h : SameShape type e e') (h' : SameShape type e' e'') :
    SameShape type e e'' := by
  induction h generalizing e'' with
  | operand he he' =>
    cases h' with
    | operand _ he'' => exact .operand he he''
    | two h1 h2 =>
      rw [split_two] at he'
      cases he'
  | two h1 h2 ih1 ih2 =>
    cases h' with
    | operand he' _ =>
      rw [split_two] at he'
      cases he'
    | two h1' h2' => exact .two (ih1 h1') (ih2 h2')

theorem SameShape.of_two {e e1 e2 : Expr} (h : SameShape type (.two type e1 e2) e) :
    ∃ e1' e2', e = .two type e1' e2' ∧ SameShape type e1 e1' ∧ SameShape type e2 e2' := by
  cases h with
  | operand he _ =>
    rw [split_two] at he
    cases he
  | two h1 h2 => exact ⟨_, _, rfl, h1, h2⟩

theorem SameShape.split_none {e e' : Expr} (h : SameShape type e e') (he : e.split type = none) :
    e'.split type = none := by
  cases h with
  | operand _ he' => exact he'
  | two h1 h2 =>
    rw [split_two] at he
    cases he

/-- A place stays a place, and what is there keeps its shape. -/
theorem SameShape.at {e e' x : Expr} {p : Slot} (h : SameShape type e e') (hp : Below type e p)
    (hget : e.get p = some x) :
    Below type e' p ∧ ∃ x', e'.get p = some x' ∧ SameShape type x x' := by
  induction hp generalizing e' with
  | here e =>
    rw [get_here, Option.some.injEq] at hget
    subst hget
    exact ⟨.here e', e', get_here e', h⟩
  | left b hp ih =>
    obtain ⟨e1', e2', rfl, h1, h2⟩ := h.of_two
    obtain ⟨hb, hx⟩ := ih h1 hget
    exact ⟨.left e2' hb, hx⟩
  | right a hp ih =>
    obtain ⟨e1', e2', rfl, h1, h2⟩ := h.of_two
    obtain ⟨hb, hx⟩ := ih h2 hget
    exact ⟨.right e1' hb, hx⟩

theorem Below.set_shape {e x y : Expr} {p : Slot} (h : Below type e p) (hget : e.get p = some x)
    (hxy : SameShape type x y) : SameShape type e (e.set p y) := by
  induction h with
  | here e =>
    rw [get_here, Option.some.injEq] at hget
    rwa [set_here, hget]
  | left b h ih => exact .two (ih hget) (.refl b)
  | right a h ih => exact .two (.refl a) (ih hget)

/-! ## Two operands -/

variable (type) in
/-- The place holds an operand: the connectives above it are `type`s, and it is none. -/
structure Operand (e : Expr) (p : Slot) (x : Expr) : Prop where
  below : Below type e p
  get : e.get p = some x
  split : x.split type = none

theorem Operand.here {e x : Expr} {p : Slot} (h : Operand type e p x) (he : e.split type = none) :
    p = [] := by
  obtain ⟨hb, -, -⟩ := h
  cases hb with
  | here => rfl
  | left b hb =>
    rw [split_two] at he
    cases he
  | right a hb =>
    rw [split_two] at he
    cases he

theorem Operand.not_here {e1 e2 x : Expr} {p : Slot} (h : Operand type (.two type e1 e2) p x) :
    p ≠ [] := by
  rintro rfl
  have hget := h.get
  rw [get_here, Option.some.injEq] at hget
  have := h.split
  rw [← hget, split_two] at this
  cases this

variable (T type) in
/-- What a write to one place and then to another does. -/
def Apart (e x1 x2 : Expr) (p1 p2 : Slot) : Prop :=
  ∀ y1, (e.set p1 y1).get p2 = some x2 ∧ Below type (e.set p1 y1) p2 ∧
    ∀ V : Values T, ∃ c, e.value V = type.op (type.op (x1.value V) (x2.value V)) c ∧
      ∀ y2, ((e.set p1 y1).set p2 y2).value V = type.op (type.op (y1.value V) (y2.value V)) c

theorem Apart.left {e1 x1 x2 : Expr} {p1 p2 : Slot} (h : Apart type T e1 x1 x2 p1 p2) (e2 : Expr) :
    Apart type T (.two type e1 e2) x1 x2 (.left :: p1) (.left :: p2) := by
  intro y1
  obtain ⟨hget, hbelow, hvalue⟩ := h y1
  refine ⟨hget, .left e2 hbelow, ?_⟩
  intro V
  obtain ⟨c, hc, hset⟩ := hvalue V
  refine ⟨type.op c (e2.value V), ?_, ?_⟩
  · rw [Expr.value, hc]
    ac_rfl
  · intro y2
    rw [set_left, set_left, Expr.value, hset]
    ac_rfl

theorem Apart.right {e2 x1 x2 : Expr} {p1 p2 : Slot} (h : Apart type T e2 x1 x2 p1 p2) (e1 : Expr) :
    Apart type T (.two type e1 e2) x1 x2 (.right :: p1) (.right :: p2) := by
  intro y1
  obtain ⟨hget, hbelow, hvalue⟩ := h y1
  refine ⟨hget, .right e1 hbelow, ?_⟩
  intro V
  obtain ⟨c, hc, hset⟩ := hvalue V
  refine ⟨type.op c (e1.value V), ?_, ?_⟩
  · rw [Expr.value, hc]
    ac_rfl
  · intro y2
    rw [set_right, set_right, Expr.value, hset]
    ac_rfl

/-- The two places are on the two sides of a connective. -/
theorem Apart.across {e1 e2 x1 x2 : Expr} {p1 p2 : Slot} (h1 : Operand type e1 p1 x1)
    (h2 : Operand type e2 p2 x2) :
    Apart type T (.two type e1 e2) x1 x2 (.left :: p1) (.right :: p2) ∧
      Apart type T (.two type e1 e2) x2 x1 (.right :: p2) (.left :: p1) := by
  refine ⟨?_, ?_⟩
  · intro y1
    refine ⟨h2.get, .right _ h2.below, ?_⟩
    intro V
    obtain ⟨c, hc, hset⟩ := h1.below.factor h1.get V
    obtain ⟨d, hd, hset'⟩ := h2.below.factor h2.get V
    refine ⟨type.op c d, ?_, ?_⟩
    · rw [Expr.value, hc, hd]
      ac_rfl
    · intro y2
      rw [set_left, set_right, Expr.value, hset, hset']
      ac_rfl
  · intro y1
    refine ⟨h1.get, .left _ h1.below, ?_⟩
    intro V
    obtain ⟨c, hc, hset⟩ := h1.below.factor h1.get V
    obtain ⟨d, hd, hset'⟩ := h2.below.factor h2.get V
    refine ⟨type.op c d, ?_, ?_⟩
    · rw [Expr.value, hc, hd]
      ac_rfl
    · intro y2
      rw [set_right, set_left, Expr.value, hset, hset']
      ac_rfl

/-- Two operands in two places are apart. -/
theorem Operand.apart {e x1 x2 : Expr} {p1 p2 : Slot} (h1 : Operand type e p1 x1)
    (h2 : Operand type e p2 x2) (hne : p1 ≠ p2) : Apart type T e x1 x2 p1 p2 := by
  obtain ⟨hb1, hg1, hs1⟩ := h1
  induction hb1 generalizing p2 with
  | here e =>
    rw [get_here, Option.some.injEq] at hg1
    rw [← hg1] at hs1
    exact absurd (h2.here hs1).symm hne
  | left e2 hb1 ih =>
    have hp2 := h2.not_here
    obtain ⟨hb2, hg2, hs2⟩ := h2
    cases hb2 with
    | here => exact absurd rfl hp2
    | left _ hb2 =>
      exact (ih ⟨hb2, hg2, hs2⟩ (fun h => hne (congrArg _ h)) hg1).left e2
    | right _ hb2 => exact (Apart.across ⟨hb1, hg1, hs1⟩ ⟨hb2, hg2, hs2⟩).1
  | right e1 hb1 ih =>
    have hp2 := h2.not_here
    obtain ⟨hb2, hg2, hs2⟩ := h2
    cases hb2 with
    | here => exact absurd rfl hp2
    | left _ hb2 => exact (Apart.across ⟨hb2, hg2, hs2⟩ ⟨hb1, hg1, hs1⟩).2
    | right _ hb2 =>
      exact (ih ⟨hb2, hg2, hs2⟩ (fun h => hne (congrArg _ h)) hg1).right e1

end
end Lichee.Kconfig

import Lichee.Kconfig.Join
import Lichee.Kconfig.Slots
import Mathlib.Tactic.Ring

/- Duplicate operands (package/config/expr.c, `expr_eliminate_dups`). Two pointers go over the
   operands of a connective, and what they point at is joined in place. The first walk keeps
   the value; the second puts "n" for one of two operands that contradict each other, and "y"
   for one of two that complement each other. With "m" for a symbol a contradiction is "m" and
   not "n", so the whole decides what was undecided, and changes no value that was "y" or "n"
   (`exprEliminateDups_decides`). Each round that changes something leaves a constant to remove,
   so the rounds end (`exprEliminateDups_returns`). -/
namespace Lichee.Kconfig
open Base

/-! ## The walks -/

/-- A walk of two pointers over an expression, with `trans_count`. -/
abbrev Walk := TwoType → Expr → Slot → Slot → Nat → Option (Expr × Nat)

/-- The switch on `e1->type` of `expr_eliminate_dups1`. -/
def dupsWithin (walk : Walk) (e1 : Expr) (count : Nat) : Option (Expr × Nat) :=
  match e1 with
  | .two type _ _ => walk type e1 [] [] count
  | _ => some (e1, count)

/-- The operands at the two places become one. -/
def joinOperands (T : Table) (n : Nat) (type : TwoType) (e : Expr) (ep1 ep2 : Slot)
    (count : Nat) : Option (Expr × Nat) := do
  let e1 ← e.get ep1
  let e2 ← e.get ep2
  match ← exprJoin T n type e1 e2 with
  | some tmp => some ((e.set ep1 (.symbol type.unit)).set ep2 tmp, count + 1)
  | none => some (e, count)

/-- The two operands at the first place, each against the second place. -/
def walkFirst (walk : Walk) (type : TwoType) (e : Expr) (ep1 ep2 : Slot) (count : Nat) :
    Option (Expr × Nat) := do
  let (e, count) ← walk type e (ep1 ++ [.left]) ep2 count
  walk type e (ep1 ++ [.right]) ep2 count

/-- The first place against each of the two operands at the second place. -/
def walkSecond (walk : Walk) (type : TwoType) (e : Expr) (ep1 ep2 : Slot) (count : Nat) :
    Option (Expr × Nat) := do
  let (e, count) ← walk type e ep1 (ep2 ++ [.left]) count
  walk type e ep1 (ep2 ++ [.right]) count

/-- `expr_eliminate_dups1`, cut off at a depth of the recursion. -/
def exprEliminateDups1 (T : Table) : Nat → Walk
  | 0, _, _, _, _, _ => none
  | n + 1, type, e, ep1, ep2, count => do
    let e1 ← e.get ep1
    let e2 ← e.get ep2
    if e1.split type ≠ none then walkFirst (exprEliminateDups1 T n) type e ep1 ep2 count
    else if e2.split type ≠ none then walkSecond (exprEliminateDups1 T n) type e ep1 ep2 count
    else if ep1 = ep2 then some (e, count)
    else do
      let (e1, count) ← dupsWithin (exprEliminateDups1 T n) e1 count
      joinOperands T n type (e.set ep1 e1) ep1 ep2 count

/-- The switch on `e1->type` of `expr_eliminate_dups2`: an operand is the connective's deciding
constant where its negation is among the operands at the second place. -/
def eliminateContrary (T : Table) (n : Nat) (walk : Walk) (e : Expr) (ep1 ep2 : Slot)
    (count : Nat) : Option (Expr × Nat) := do
  match ← e.get ep1 with
  | .two type e1 e2 => do
    let (e1, count) ← walk type (.two type e1 e2) [] [] count
    let e := e.set ep1 e1
    let tmp1 ← exprTransform T n (.not e1)
    let tmp2 ← e.get ep2
    let (_, tmp1, _) ← exprExtractEqTwo n type.flip tmp1 tmp2
    if tmp1 = .symbol type.flip.unit then some (e.set ep1 (.symbol type.flip.zero), count + 1)
    else some (e, count)
  | _ => some (e, count)

/-- The second place of `expr_eliminate_dups2`, which goes on after it. -/
def secondOperands (walk : Walk) (type : TwoType) (e e2 : Expr) (ep1 ep2 : Slot) (count : Nat) :
    Option (Expr × Nat) :=
  if e2.split type ≠ none then walkSecond walk type e ep1 ep2 count else some (e, count)

/-- `expr_eliminate_dups2` -/
def exprEliminateDups2 (T : Table) : Nat → Walk
  | 0, _, _, _, _, _ => none
  | n + 1, type, e, ep1, ep2, count => do
    let e1 ← e.get ep1
    let e2 ← e.get ep2
    if e1.split type ≠ none then walkFirst (exprEliminateDups2 T n) type e ep1 ep2 count
    else do
      let (e, count) ← secondOperands (exprEliminateDups2 T n) type e e2 ep1 ep2 count
      if ep1 = ep2 then some (e, count)
      else eliminateContrary T n (exprEliminateDups2 T n) e ep1 ep2 count

/-- One round of `expr_eliminate_dups`. -/
def dupsRound (T : Table) (n : Nat) (e : Expr) : Option (Expr × Nat) :=
  match e with
  | .two type _ _ => do
    let (e, count) ← exprEliminateDups1 T n type e [] [] 0
    exprEliminateDups2 T n type e [] [] count
  | _ => some (e, 0)

/-- `expr_eliminate_dups`, cut off at a number of rounds. -/
def exprEliminateDups (T : Table) (n : Nat) : Nat → Expr → Option Expr
  | 0, _ => none
  | rounds + 1, e => do
    let (e, count) ← dupsRound T n e
    if count = 0 then some e else exprEliminateDups T n rounds (exprEliminateYn e)

/-! ## What a rewriting does -/

section
variable {T : Table} {type : TwoType}

/-- A relation between the value before and the value after that connectives keep. -/
structure Compatible (R : Tristate → Tristate → Prop) : Prop where
  refl : ∀ a, R a a
  trans : ∀ {a b c}, R a b → R b c → R a c
  op : ∀ (type : TwoType) {a b} (c), R a b → R (type.op a c) (type.op b c)

/-- "y" and "n" stay, "m" may be decided. -/
def Decides (a b : Tristate) : Prop := a ≠ .mod → b = a

theorem compatible_eq : Compatible Eq where
  refl _ := rfl
  trans h h' := h.trans h'
  op type _ _ c h := by rw [h]

theorem compatible_decides : Compatible Decides where
  refl _ _ := rfl
  trans := by
    intro a b c h h' ha
    have hb := h ha
    subst hb
    exact h' ha
  op := by
    intro type a b c h hne
    cases a with
    | no => rw [h (by decide)]
    | yes => rw [h (by decide)]
    | mod =>
      -- an undecided operand leaves the whole undecided, unless the other decides it
      cases type <;> cases c <;> cases b <;> first | rfl | exact absurd rfl hne

variable (T type) in
/-- What one walk does: it keeps the connectives, never makes the expression larger, and counts
only where it left a constant behind. -/
structure Reduced (R : Tristate → Tristate → Prop) (e : Expr) (count : Nat) (e' : Expr)
    (count' : Nat) : Prop where
  shape : SameShape type e e'
  value : ∀ V : Values T, R (e.value V) (e'.value V)
  size : e'.size ≤ e.size
  change : e' = e ∧ count' = count ∨ ¬ e'.YnFree ∧ count < count'

namespace Reduced
variable {R : Tristate → Tristate → Prop} {e e' e'' : Expr} {count count' count'' : Nat}

theorem refl (hR : Compatible R) (e : Expr) (count : Nat) : Reduced T type R e count e count where
  shape := .refl e
  value _ := hR.refl _
  size := le_refl _
  change := Or.inl ⟨rfl, rfl⟩

theorem trans (hR : Compatible R) (h : Reduced T type R e count e' count')
    (h' : Reduced T type R e' count' e'' count'') : Reduced T type R e count e'' count'' where
  shape := h.shape.trans h'.shape
  value V := hR.trans (h.value V) (h'.value V)
  size := h'.size.trans h.size
  change := by
    obtain ⟨rfl, rfl⟩ | ⟨hyn', hlt'⟩ := h'.change
    · exact h.change
    · obtain ⟨-, rfl⟩ | ⟨-, hlt⟩ := h.change
      · exact Or.inr ⟨hyn', hlt'⟩
      · exact Or.inr ⟨hyn', hlt.trans hlt'⟩

theorem decides (h : Reduced T type Eq e count e' count') :
    Reduced T type Decides e count e' count' where
  shape := h.shape
  value V := by
    intro _
    exact (h.value V).symm
  size := h.size
  change := h.change

end Reduced

theorem set_get {e x : Expr} {p : Slot} (h : Below type e p) (hget : e.get p = some x) :
    e.set p x = e := by
  induction h with
  | here e =>
    rw [get_here, Option.some.injEq] at hget
    rw [set_here, hget]
  | left b h ih => rw [set_left, ih hget]
  | right a h ih => rw [set_right, ih hget]

/-- A rewriting of an operand is one of the whole. -/
theorem Reduced.within {R : Tristate → Tristate → Prop} (hR : Compatible R) {type' : TwoType}
    {e x x' : Expr} {p : Slot} {count count' : Nat} (hx : Operand type e p x)
    (hx' : x'.split type = none) (h : Reduced T type' R x count x' count') :
    Reduced T type R e count (e.set p x') count' where
  shape := hx.below.set_shape hx.get (.operand hx.split hx')
  value V := by
    obtain ⟨c, hc, hset⟩ := hx.below.factor hx.get V
    rw [hc, hset]
    exact hR.op type c (h.value V)
  size := by
    have hsize := hx.below.set_size hx.get x'
    have := h.size
    omega
  change := by
    have hshape := hx.below.set_shape hx.get (.operand hx.split hx')
    obtain ⟨hb, -⟩ := hshape.at hx.below hx.get
    obtain ⟨rfl, rfl⟩ | ⟨hyn, hlt⟩ := h.change
    · exact Or.inl ⟨set_get hx.below hx.get, rfl⟩
    · exact Or.inr ⟨hb.not_ynFree (hx.below.get_set x') hyn, hlt⟩

/-! ## The first walk -/

theorem joinOperands_reduced {n : Nat} {e e' x1 x2 : Expr} {p1 p2 : Slot} {count count' : Nat}
    (h1 : Operand type e p1 x1) (h2 : Operand type e p2 x2) (hne : p1 ≠ p2)
    (h : joinOperands T n type e p1 p2 count = some (e', count')) :
    Reduced T type Eq e count e' count' := by
  simp only [joinOperands, h1.get, h2.get, Option.bind_eq_bind, Option.bind_some,
    Option.bind_eq_some_iff] at h
  obtain ⟨tmp, hjoin, h⟩ := h
  cases tmp with
  | none =>
    cases h
    exact .refl compatible_eq e count
  | some tmp =>
    cases h
    have hunit : (Expr.symbol type.unit).split type = none := rfl
    have htmp : tmp.split type = none := by
      obtain rfl | htest := exprJoin_cases hjoin
      · exact h1.split
      · exact isTest_split htest type
    obtain ⟨hget2, hbelow2, -⟩ := h1.apart (T := T) h2 hne (.symbol type.unit)
    have hshape1 := h1.below.set_shape h1.get (.operand h1.split hunit)
    obtain ⟨hbelow1, -⟩ := hshape1.at h1.below h1.get
    have h1' : Operand type (e.set p1 (.symbol type.unit)) p1 (.symbol type.unit) :=
      ⟨hbelow1, h1.below.get_set _, hunit⟩
    have h2' : Operand type (e.set p1 (.symbol type.unit)) p2 x2 := ⟨hbelow2, hget2, h2.split⟩
    refine ⟨?_, ?_, ?_, ?_⟩
    · exact hshape1.trans (hbelow2.set_shape hget2 (.operand h2.split htmp))
    · intro V
      obtain ⟨-, -, hvalue⟩ := h1.apart (T := T) h2 hne (.symbol type.unit)
      obtain ⟨c, hc, hset⟩ := hvalue V
      rw [hc, hset, value_unit, TwoType.unit_op, exprJoin_value V hjoin]
    · have hsize1 := h1.below.set_size h1.get (.symbol type.unit)
      have hsize2 := hbelow2.set_size hget2 tmp
      have hx1 := x1.size_pos
      have hx2 := x2.size_pos
      simp only [Expr.size] at hsize1
      obtain rfl | htest := exprJoin_cases hjoin
      · omega
      · have := isTest_size htest
        omega
    · right
      -- the unit at the first place is still there once the second was written
      obtain ⟨hget1, hbelow1', -⟩ := h2'.apart (T := T) h1' hne.symm tmp
      have hp1 : p1 ≠ [] := by
        rintro rfl
        have hg := h1.get
        rw [get_here, Option.some.injEq] at hg
        have hs := h1.split
        rw [← hg] at hs
        exact hne (h2.here hs).symm
      refine ⟨hbelow1'.isYn_not_ynFree hget1 hp1 ?_, Nat.lt_succ_self _⟩
      cases type with
      | or => exact Or.inr rfl
      | and => exact Or.inl rfl

variable (T type) in
/-- What a walk does between two places of an expression. -/
def Walks (R : Tristate → Tristate → Prop) (walk : Walk) : Prop :=
  ∀ {e e' : Expr} {p1 p2 : Slot} {count count' : Nat}, Below type e p1 → Below type e p2 →
    walk type e p1 p2 count = some (e', count') → Reduced T type R e count e' count'

theorem walkFirst_reduced {R : Tristate → Tristate → Prop} (hR : Compatible R) {walk : Walk}
    (ih : Walks T type R walk) {e e' x : Expr} {p1 p2 : Slot} {count count' : Nat}
    (h1 : Below type e p1) (hget : e.get p1 = some x) (hx : x.split type ≠ none)
    (h2 : Below type e p2) (h : walkFirst walk type e p1 p2 count = some (e', count')) :
    Reduced T type R e count e' count' := by
  simp only [walkFirst, Option.bind_eq_bind, Option.bind_eq_some_iff, Prod.exists] at h
  obtain ⟨e₁, c₁, hl, hr⟩ := h
  obtain ⟨⟨a, b⟩, hsplit⟩ := Option.ne_none_iff_exists'.mp hx
  have hxe := split_eq_some hsplit
  subst hxe
  have hred := ih (h1.left_of hget).1 h2 hl
  obtain ⟨hb1, x', hget', hshape⟩ := hred.shape.at h1 hget
  obtain ⟨hb2, -⟩ := hred.shape.at h2 h2.get.choose_spec
  obtain ⟨a', b', rfl, -, -⟩ := hshape.of_two
  exact hred.trans hR (ih (hb1.right_of hget').1 hb2 hr)

theorem walkSecond_reduced {R : Tristate → Tristate → Prop} (hR : Compatible R) {walk : Walk}
    (ih : Walks T type R walk) {e e' x : Expr} {p1 p2 : Slot} {count count' : Nat}
    (h1 : Below type e p1) (h2 : Below type e p2) (hget : e.get p2 = some x)
    (hx : x.split type ≠ none) (h : walkSecond walk type e p1 p2 count = some (e', count')) :
    Reduced T type R e count e' count' := by
  simp only [walkSecond, Option.bind_eq_bind, Option.bind_eq_some_iff, Prod.exists] at h
  obtain ⟨e₁, c₁, hl, hr⟩ := h
  obtain ⟨⟨a, b⟩, hsplit⟩ := Option.ne_none_iff_exists'.mp hx
  have hxe := split_eq_some hsplit
  subst hxe
  have hred := ih h1 (h2.left_of hget).1 hl
  obtain ⟨hb2, x', hget', hshape⟩ := hred.shape.at h2 hget
  obtain ⟨hb1, -⟩ := hred.shape.at h1 h1.get.choose_spec
  obtain ⟨a', b', rfl, -, -⟩ := hshape.of_two
  exact hred.trans hR (ih hb1 (hb2.right_of hget').1 hr)

/-- An operand that is a connective is rewritten on its own. -/
theorem within_reduced {R : Tristate → Tristate → Prop} (hR : Compatible R) {walk : Walk}
    (ih : ∀ type, Walks T type R walk) {type' : TwoType} {e x1 x2 y : Expr} {p : Slot}
    {count count' : Nat} (hx : Operand type e p (.two type' x1 x2))
    (h : walk type' (.two type' x1 x2) [] [] count = some (y, count')) :
    Reduced T type R e count (e.set p y) count' ∧ y.split type = none ∧
      ∃ y1 y2, y = .two type' y1 y2 := by
  have hred := ih type' (.here _) (.here _) h
  obtain ⟨y1, y2, rfl, -, -⟩ := hred.shape.of_two
  have hne : type' ≠ type := by
    rintro rfl
    have hs := hx.split
    rw [split_two] at hs
    cases hs
  exact ⟨hred.within hR hx (split_not hne y1 y2), split_not hne y1 y2, y1, y2, rfl⟩

theorem dupsWithin_reduced {walk : Walk} (ih : ∀ type, Walks T type Eq walk) {e x y : Expr}
    {p : Slot} {count count' : Nat} (hx : Operand type e p x)
    (h : dupsWithin walk x count = some (y, count')) :
    Reduced T type Eq e count (e.set p y) count' ∧ y.split type = none := by
  unfold dupsWithin at h
  split at h
  · obtain ⟨hred, hsplit, -⟩ := within_reduced compatible_eq ih hx h
    exact ⟨hred, hsplit⟩
  · cases h
    rw [set_get hx.below hx.get]
    exact ⟨.refl compatible_eq e count, hx.split⟩

/-- The first walk keeps the value. -/
theorem exprEliminateDups1_walks (n : Nat) (type : TwoType) :
    Walks T type Eq (exprEliminateDups1 T n) := by
  induction n generalizing type with
  | zero =>
    intro e e' p1 p2 count count' _ _ h
    cases h
  | succ n ih =>
    intro e e' p1 p2 count count' h1 h2 h
    obtain ⟨x1, hx1⟩ := h1.get
    obtain ⟨x2, hx2⟩ := h2.get
    simp only [exprEliminateDups1, hx1, hx2, Option.bind_eq_bind, Option.bind_some] at h
    split_ifs at h with hs1 hs2 hp
    · exact walkFirst_reduced compatible_eq (ih type) h1 hx1 hs1 h2 h
    · exact walkSecond_reduced compatible_eq (ih type) h1 h2 hx2 hs2 h
    · cases h
      exact .refl compatible_eq e count
    · simp only [Option.bind_eq_some_iff, Prod.exists] at h
      obtain ⟨y, c, hy, h⟩ := h
      have ho1 : Operand type e p1 x1 := ⟨h1, hx1, not_not.mp hs1⟩
      have ho2 : Operand type e p2 x2 := ⟨h2, hx2, not_not.mp hs2⟩
      obtain ⟨hred, hsplit⟩ := dupsWithin_reduced ih ho1 hy
      obtain ⟨hget2, hbelow2, -⟩ := ho1.apart (T := T) ho2 hp y
      have ho1' : Operand type (e.set p1 y) p1 y :=
        ⟨(hred.shape.at h1 hx1).1, h1.get_set y, hsplit⟩
      exact hred.trans compatible_eq
        (joinOperands_reduced ho1' ⟨hbelow2, hget2, ho2.split⟩ hp h)

/-! ## The second walk -/

theorem flip_ne {type type' : TwoType} (h : type' ≠ type) : type'.flip = type := by
  cases type <;> cases type' <;> first | rfl | exact absurd rfl h

/-- An operand against its own negation. -/
theorem contrary_value (type : TwoType) {x d : Tristate}
    (h : type.op (type.op x (exprNot x)) d ≠ .mod) :
    type.op (type.op x (exprNot x)) d = type.zeroVal := by
  cases type <;> cases x <;> cases d <;> first | rfl | exact absurd rfl h

theorem Below.here_of {e : Expr} {p : Slot} (h : Below type e p) (he : e.split type = none) :
    p = [] := by
  cases h with
  | here => rfl
  | left b h =>
    rw [split_two] at he
    cases he
  | right a h =>
    rw [split_two] at he
    cases he

theorem eliminateContrary_reduced {n : Nat} {walk : Walk}
    (ih : ∀ type, Walks T type Decides walk) {e e' x1 : Expr} {p1 p2 : Slot} {count count' : Nat}
    (h1 : Operand type e p1 x1) (h2 : Below type e p2) (hne : p1 ≠ p2)
    (h : eliminateContrary T n walk e p1 p2 count = some (e', count')) :
    Reduced T type Decides e count e' count' := by
  rw [eliminateContrary, h1.get] at h
  cases x1 with
  | two type' a b =>
    simp only [Option.bind_eq_bind, Option.bind_some, Option.bind_eq_some_iff, Prod.exists] at h
    obtain ⟨y, c, hy, tmp1, htmp1, tmp2, htmp2, p, tmp1', tmp2', hextract, h⟩ := h
    obtain ⟨hred, hsplit, -⟩ := within_reduced compatible_decides ih h1 hy
    obtain ⟨hb1, -⟩ := hred.shape.at h1.below h1.get
    split_ifs at h with hunit
    · cases h
      refine hred.trans compatible_decides ?_
      have hflip : type'.flip = type := by
        apply flip_ne
        rintro rfl
        have hs := h1.split
        rw [split_two] at hs
        cases hs
      rw [hflip] at hextract hunit ⊢
      have ho1 : Operand type (e.set p1 y) p1 y := ⟨hb1, h1.below.get_set y, hsplit⟩
      obtain ⟨hb2, -⟩ := hred.shape.at h2 h2.get.choose_spec
      refine ⟨ho1.below.set_shape ho1.get (.operand hsplit rfl), ?_, ?_, ?_⟩
      · intro V hmod
        obtain ⟨c1, hc1, hset⟩ := ho1.below.factor ho1.get V
        obtain ⟨c2, hc2, -⟩ := hb2.factor htmp2 V
        obtain ⟨d, hd1, hd2⟩ := exprExtractEqTwo_le hextract V
        rw [hunit, value_unit, type.unit_op, exprTransform_value V htmp1, Expr.value] at hd1
        -- the whole is the operand, its negation and the rest
        have hwhole : (e.set p1 y).value V = type.op (type.op (y.value V) (exprNot (y.value V)))
            (type.op (type.op c1 (tmp2'.value V)) c2) := by
          calc (e.set p1 y).value V = type.op ((e.set p1 y).value V) ((e.set p1 y).value V) :=
                (type.op_self _).symm
            _ = type.op (type.op (y.value V) c1)
                (type.op (type.op (tmp2'.value V) (exprNot (y.value V))) c2) := by
              nth_rewrite 1 [hc1]
              rw [hc2, hd2, hd1]
            _ = _ := by ac_rfl
        rw [hset, value_zero, type.zero_op, hwhole, contrary_value type (hwhole ▸ hmod)]
      · have hsize := ho1.below.set_size ho1.get (.symbol type.zero)
        have := y.size_pos
        simp only [Expr.size] at hsize
        omega
      · right
        have hp1 : p1 ≠ [] := by
          rintro rfl
          have hg := h1.get
          rw [get_here, Option.some.injEq] at hg
          have hs := h1.split
          rw [← hg] at hs
          exact hne (h2.here_of hs).symm
        have hshape := ho1.below.set_shape ho1.get
          (.operand hsplit rfl : SameShape type y (.symbol type.zero))
        obtain ⟨hb, -⟩ := hshape.at ho1.below ho1.get
        refine ⟨hb.isYn_not_ynFree (ho1.below.get_set _) hp1 ?_, Nat.lt_succ_self _⟩
        cases type with
        | or => exact Or.inl rfl
        | and => exact Or.inr rfl
    · cases h
      exact hred
  | _ =>
    cases h
    exact .refl compatible_decides e count

/-- The second walk decides what was undecided. -/
theorem exprEliminateDups2_walks (n : Nat) (type : TwoType) :
    Walks T type Decides (exprEliminateDups2 T n) := by
  induction n generalizing type with
  | zero =>
    intro e e' p1 p2 count count' _ _ h
    cases h
  | succ n ih =>
    intro e e' p1 p2 count count' h1 h2 h
    obtain ⟨x1, hx1⟩ := h1.get
    obtain ⟨x2, hx2⟩ := h2.get
    simp only [exprEliminateDups2, hx1, hx2, Option.bind_eq_bind, Option.bind_some] at h
    by_cases hs1 : x1.split type ≠ none
    · rw [if_pos hs1] at h
      exact walkFirst_reduced compatible_decides (ih type) h1 hx1 hs1 h2 h
    · rw [if_neg hs1] at h
      simp only [Option.bind_eq_some_iff, Prod.exists] at h
      obtain ⟨e₁, c₁, hsecond, h⟩ := h
      have hred : Reduced T type Decides e count e₁ c₁ := by
        unfold secondOperands at hsecond
        split_ifs at hsecond with hs2
        · exact walkSecond_reduced compatible_decides (ih type) h1 h2 hx2 hs2 hsecond
        · cases hsecond
          exact .refl compatible_decides e count
      refine hred.trans compatible_decides ?_
      split_ifs at h with hp
      · cases h
        exact .refl compatible_decides _ _
      · obtain ⟨hb1, x1', hx1', hshape⟩ := hred.shape.at h1 hx1
        obtain ⟨hb2, -⟩ := hred.shape.at h2 hx2
        exact eliminateContrary_reduced ih ⟨hb1, hx1', hshape.split_none (not_not.mp hs1)⟩ hb2 hp h

/-! ## The rounds -/

theorem dupsRound_reduced {n : Nat} {e e' : Expr} {count : Nat}
    (h : dupsRound T n e = some (e', count)) :
    (∀ V : Values T, Decides (e.value V) (e'.value V)) ∧ e'.size ≤ e.size ∧
      (e' = e ∧ count = 0 ∨ ¬ e'.YnFree ∧ 0 < count) := by
  unfold dupsRound at h
  split at h
  · next type a b =>
    simp only [Option.bind_eq_bind, Option.bind_eq_some_iff, Prod.exists] at h
    obtain ⟨e₁, c₁, hfirst, hsecond⟩ := h
    have h₁ := (exprEliminateDups1_walks (T := T) n type (.here _) (.here _) hfirst).decides
    have h₂ := exprEliminateDups2_walks (T := T) n type (.here _) (.here _) hsecond
    have hred := h₁.trans compatible_decides h₂
    exact ⟨hred.value, hred.size, hred.change⟩
  · cases h
    exact ⟨fun V => compatible_decides.refl _, le_refl _, Or.inl ⟨rfl, rfl⟩⟩

/-- What was "y" or "n" stays it, and another round finds nothing to do. -/
theorem exprEliminateDups_decides {n rounds : Nat} {e e' : Expr}
    (h : exprEliminateDups T n rounds e = some e') :
    (∀ V : Values T, Decides (e.value V) (e'.value V)) ∧ dupsRound T n e' = some (e', 0) := by
  induction rounds generalizing e with
  | zero => cases h
  | succ rounds ih =>
    simp only [exprEliminateDups, Option.bind_eq_bind, Option.bind_eq_some_iff, Prod.exists] at h
    obtain ⟨e₁, count, hround, h⟩ := h
    obtain ⟨hvalue, -, hchange⟩ := dupsRound_reduced hround
    split_ifs at h with hcount
    · cases h
      obtain ⟨rfl, -⟩ | ⟨-, hpos⟩ := hchange
      · exact ⟨hvalue, hcount ▸ hround⟩
      · omega
    · obtain ⟨hrest, hround'⟩ := ih h
      refine ⟨?_, hround'⟩
      intro V
      have hV := hrest V
      rw [exprEliminateYn_value] at hV
      exact compatible_decides.trans (hvalue V) hV

/-! ## The functions return -/

/-- The height of the connectives `type` at the root. -/
def spread (type : TwoType) : Expr → Nat
  | .two type' e1 e2 => if type' = type then max (spread type e1) (spread type e2) + 1 else 0
  | _ => 0

theorem spread_two (e1 e2 : Expr) :
    spread type (.two type e1 e2) = max (spread type e1) (spread type e2) + 1 := by
  simp [spread]

theorem spread_lt_size (type : TwoType) (e : Expr) : spread type e < e.size := by
  induction e with
  | symbol s => exact Nat.one_pos
  | comp type s1 s2 => exact Nat.one_pos
  | not e ih => exact Nat.succ_pos _
  | two type' e1 e2 ih1 ih2 =>
    rw [spread, Expr.size]
    split_ifs <;> omega

theorem SameShape.spread_eq {e e' : Expr} (h : SameShape type e e') :
    spread type e' = spread type e := by
  induction h with
  | operand he he' =>
    have hzero : ∀ e : Expr, e.split type = none → spread type e = 0 := by
      intro e he
      cases e with
      | two type' e1 e2 =>
        simp only [Expr.split, ite_eq_right_iff, reduceCtorEq, imp_false] at he
        simp [spread, he]
      | _ => rfl
    rw [hzero _ he, hzero _ he']
  | two h1 h2 ih1 ih2 => rw [spread_two, spread_two, ih1, ih2]

theorem Below.size_le {e x : Expr} {p : Slot} (h : Below type e p) (hget : e.get p = some x) :
    x.size ≤ e.size := by
  have hsize := h.set_size hget (.symbol symbolYes)
  have hpos := (e.set p (.symbol symbolYes)).size_pos
  simp only [Expr.size] at hsize
  omega

theorem Below.size_lt {e x : Expr} {p : Slot} (h : Below type e p) (hget : e.get p = some x)
    (hp : p ≠ []) : x.size < e.size := by
  cases h with
  | here => exact absurd rfl hp
  | left b h =>
    have := h.size_le hget
    have := b.size_pos
    rw [Expr.size]
    omega
  | right a h =>
    have := h.size_le hget
    have := a.size_pos
    rw [Expr.size]
    omega

variable (type) in
/-- A walk returns for expressions up to a size and places up to a height. -/
def Returns (walk : Walk) (s m : Nat) : Prop :=
  ∀ (e : Expr) (p1 p2 : Slot) (x1 x2 : Expr) (count : Nat), e.size ≤ s → Below type e p1 →
    e.get p1 = some x1 → Below type e p2 → e.get p2 = some x2 →
    spread type x1 + spread type x2 ≤ m → ∃ e' count', walk type e p1 p2 count = some (e', count')

theorem walkFirst_returns {R : Tristate → Tristate → Prop} {walk : Walk} {s m : Nat}
    (hw : Walks T type R walk) (ih : Returns type walk s m) {e a b x2 : Expr} {p1 p2 : Slot}
    (count : Nat) (hs : e.size ≤ s) (h1 : Below type e p1) (hget1 : e.get p1 = some (.two type a b))
    (h2 : Below type e p2) (hget2 : e.get p2 = some x2)
    (hm : spread type (.two type a b) + spread type x2 ≤ m + 1) :
    ∃ e' count', walkFirst walk type e p1 p2 count = some (e', count') := by
  rw [spread_two] at hm
  obtain ⟨hl, hgetl⟩ := h1.left_of hget1
  obtain ⟨e₁, c₁, hwalk⟩ := ih e _ p2 a x2 count hs hl hgetl h2 hget2 (by omega)
  have hred := hw hl h2 hwalk
  obtain ⟨hb1, x1', hget1', hshape1⟩ := hred.shape.at h1 hget1
  obtain ⟨hb2, x2', hget2', hshape2⟩ := hred.shape.at h2 hget2
  obtain ⟨a', b', rfl, -, hb⟩ := hshape1.of_two
  obtain ⟨hr, hgetr⟩ := hb1.right_of hget1'
  have hspread1 := hb.spread_eq
  have hspread2 := hshape2.spread_eq
  obtain ⟨e₂, c₂, hwalk'⟩ := ih e₁ _ p2 b' x2' c₁ (hred.size.trans hs) hr hgetr hb2 hget2'
    (by omega)
  exact ⟨e₂, c₂, by simp [walkFirst, hwalk, hwalk']⟩

theorem walkSecond_returns {R : Tristate → Tristate → Prop} {walk : Walk} {s m : Nat}
    (hw : Walks T type R walk) (ih : Returns type walk s m) {e a b x1 : Expr} {p1 p2 : Slot}
    (count : Nat) (hs : e.size ≤ s) (h1 : Below type e p1) (hget1 : e.get p1 = some x1)
    (h2 : Below type e p2) (hget2 : e.get p2 = some (.two type a b))
    (hm : spread type x1 + spread type (.two type a b) ≤ m + 1) :
    ∃ e' count', walkSecond walk type e p1 p2 count = some (e', count') := by
  rw [spread_two] at hm
  obtain ⟨hl, hgetl⟩ := h2.left_of hget2
  obtain ⟨e₁, c₁, hwalk⟩ := ih e p1 _ x1 a count hs h1 hget1 hl hgetl (by omega)
  have hred := hw h1 hl hwalk
  obtain ⟨hb1, x1', hget1', hshape1⟩ := hred.shape.at h1 hget1
  obtain ⟨hb2, x2', hget2', hshape2⟩ := hred.shape.at h2 hget2
  obtain ⟨a', b', rfl, -, hb⟩ := hshape2.of_two
  obtain ⟨hr, hgetr⟩ := hb2.right_of hget2'
  have hspread1 := hb.spread_eq
  have hspread2 := hshape1.spread_eq
  obtain ⟨e₂, c₂, hwalk'⟩ := ih e₁ p1 _ x1' b' c₁ (hred.size.trans hs) hb1 hget1' hr hgetr
    (by omega)
  exact ⟨e₂, c₂, by simp [walkSecond, hwalk, hwalk']⟩

/-- The depth that is enough for the first walk. -/
def cost1 (s : Nat) : Nat := s * s + 8 * s

/-- The depth that is enough for the second walk. -/
def cost2 (s : Nat) : Nat := s * s + 40 * s

theorem cost1_succ (s : Nat) : cost1 (s + 1) = cost1 s + 2 * s + 9 := by
  unfold cost1
  ring

theorem cost2_succ (s : Nat) : cost2 (s + 1) = cost2 s + 2 * s + 41 := by
  unfold cost2
  ring

theorem Operand.place_ne {e x : Expr} {p1 p2 : Slot} (h1 : Operand type e p1 x)
    (h2 : Below type e p2) (hne : p1 ≠ p2) : p1 ≠ [] := by
  rintro rfl
  have hg := h1.get
  rw [get_here, Option.some.injEq] at hg
  have hs := h1.split
  rw [← hg] at hs
  exact hne (h2.here_of hs).symm

theorem dupsWithin_returns {walk : Walk} {s : Nat} (ih : ∀ type, Returns type walk s (2 * s))
    {x : Expr} (hx : x.size ≤ s) (count : Nat) :
    ∃ y count', dupsWithin walk x count = some (y, count') := by
  unfold dupsWithin
  split
  · next type a b =>
    have := spread_lt_size type (.two type a b)
    exact ih type _ [] [] _ _ count hx (.here _) (get_here _) (.here _) (get_here _) (by omega)
  · exact ⟨_, _, rfl⟩

theorem joinOperands_returns (type : TwoType) {n : Nat} {e x1 x2 : Expr} {p1 p2 : Slot}
    (hget1 : e.get p1 = some x1)
    (hget2 : e.get p2 = some x2) (hn : 4 * (x1.size + x2.size) ≤ n) (count : Nat) :
    ∃ e' count', joinOperands T n type e p1 p2 count = some (e', count') := by
  obtain ⟨tmp, htmp⟩ := exprJoin_returns T type x1 x2 hn
  simp only [joinOperands, hget1, hget2, htmp, Option.bind_eq_bind, Option.bind_some]
  cases tmp with
  | none => exact ⟨_, _, rfl⟩
  | some tmp => exact ⟨_, _, rfl⟩

/-- One level of the recursion of the first walk. -/
theorem exprEliminateDups1_returns_step {s m n : Nat}
    (hrec : ∀ k, k + 1 = m → Returns type (exprEliminateDups1 T n) (s + 1) k)
    (hwithin : ∀ type, Returns type (exprEliminateDups1 T n) s (2 * s))
    (hn : 8 * (s + 1) ≤ n) : Returns type (exprEliminateDups1 T (n + 1)) (s + 1) m := by
  intro e p1 p2 x1 x2 count hs h1 hget1 h2 hget2 hm
  simp only [exprEliminateDups1, hget1, hget2, Option.bind_eq_bind, Option.bind_some]
  have hw : ∀ type, Walks T type Eq (exprEliminateDups1 T n) := exprEliminateDups1_walks n
  cases hs1 : x1.split type with
  | some q =>
    obtain ⟨a, b⟩ := q
    obtain rfl := split_eq_some hs1
    rw [if_pos (by simp)]
    rw [spread_two] at hm
    obtain ⟨k, rfl⟩ : ∃ k, m = k + 1 := ⟨m - 1, by omega⟩
    exact walkFirst_returns (hw type) (hrec k rfl) count hs h1 hget1 h2 hget2
      (by rw [spread_two]; omega)
  | none =>
    rw [if_neg (by simp)]
    cases hs2 : x2.split type with
    | some q =>
      obtain ⟨a, b⟩ := q
      obtain rfl := split_eq_some hs2
      rw [if_pos (by simp)]
      rw [spread_two] at hm
      obtain ⟨k, rfl⟩ : ∃ k, m = k + 1 := ⟨m - 1, by omega⟩
      exact walkSecond_returns (hw type) (hrec k rfl) count hs h1 hget1 h2 hget2
        (by rw [spread_two]; omega)
    | none =>
      rw [if_neg (by simp)]
      split_ifs with hp
      · exact ⟨_, _, rfl⟩
      · have ho1 : Operand type e p1 x1 := ⟨h1, hget1, hs1⟩
        have ho2 : Operand type e p2 x2 := ⟨h2, hget2, hs2⟩
        have hlt1 := h1.size_lt hget1 (ho1.place_ne h2 hp)
        have hlt2 := h2.size_lt hget2 (ho2.place_ne h1 (Ne.symm hp))
        obtain ⟨y, c, hy⟩ := dupsWithin_returns hwithin (show x1.size ≤ s by omega) count
        obtain ⟨hred, -⟩ := dupsWithin_reduced hw ho1 hy
        obtain ⟨hget2', -⟩ := ho1.apart (T := T) ho2 hp y
        -- the rewritten operand is no larger, so the depth is enough to compare it
        have hsize := h1.set_size hget1 y
        have hle := hred.size
        obtain ⟨e', c', hj⟩ := joinOperands_returns (T := T) type (h1.get_set y) hget2'
          (n := n) (by omega) c
        exact ⟨e', c', by simp [hy, hj]⟩

theorem exprEliminateDups1_returns (s : Nat) {m n : Nat} (hn : m + 1 + cost1 s ≤ n)
    (type : TwoType) : Returns type (exprEliminateDups1 T n) s m := by
  induction s generalizing m n type with
  | zero =>
    intro e p1 p2 x1 x2 count hs
    have := e.size_pos
    omega
  | succ s ihs =>
    have hcost := cost1_succ s
    have hcost' : 8 * (s + 1) ≤ cost1 (s + 1) := Nat.le_add_left _ _
    induction m generalizing n with
    | zero =>
      obtain ⟨k, rfl⟩ : ∃ k, n = k + 1 := ⟨n - 1, by omega⟩
      apply exprEliminateDups1_returns_step
      · intro j hj
        omega
      · exact fun type => ihs (by omega) type
      · omega
    | succ m ihm =>
      obtain ⟨k, rfl⟩ : ∃ k, n = k + 1 := ⟨n - 1, by omega⟩
      apply exprEliminateDups1_returns_step
      · intro j hj
        obtain rfl : j = m := by omega
        exact ihm (by omega)
      · exact fun type => ihs (by omega) type
      · omega

theorem eliminateContrary_returns {n s : Nat} {walk : Walk}
    (hw : ∀ type, Walks T type Decides walk) (hwithin : ∀ type, Returns type walk s (2 * s))
    (hn : 20 * (s + 1) ≤ n) {e x1 : Expr} {p1 p2 : Slot} (h1 : Operand type e p1 x1)
    (h2 : Below type e p2) (hs : e.size ≤ s + 1) (hp : p1 ≠ []) (count : Nat) :
    ∃ e' count', eliminateContrary T n walk e p1 p2 count = some (e', count') := by
  have hlt := h1.below.size_lt h1.get hp
  rw [eliminateContrary, h1.get]
  cases x1 with
  | two type' a b =>
    have hspread := spread_lt_size type' (.two type' a b)
    obtain ⟨y, c, hy⟩ := hwithin type' (.two type' a b) [] [] _ _ count (by omega) (.here _)
      (get_here _) (.here _) (get_here _) (by omega)
    obtain ⟨hred, -⟩ := within_reduced compatible_decides hw h1 hy
    have hysize := (hw type' (.here _) (.here _) hy).size
    obtain ⟨x2, hget2⟩ := (hred.shape.at h2 h2.get.choose_spec).1.get
    have hx2 := (hred.shape.at h2 h2.get.choose_spec).1.size_le hget2
    have hsize := hred.size
    -- the negation of the operand is at most three times as large, once it is a normal form
    have hheight := height_lt_size y
    obtain ⟨tmp1, htmp1, htmp1size⟩ := exprTransform_size T (.not y) (n := n)
      (by rw [Expr.height]; omega)
    rw [Expr.size] at htmp1size
    obtain ⟨tmp, t1, t2, hextract⟩ := exprExtractEqTwo_returns type'.flip tmp1 x2 (n := n)
      (by omega)
    simp only [Option.bind_eq_bind, Option.bind_some, hy, htmp1, hget2, hextract]
    split_ifs
    · exact ⟨_, _, rfl⟩
    · exact ⟨_, _, rfl⟩
  | _ => exact ⟨_, _, rfl⟩

theorem secondOperands_returns {n s m : Nat}
    (hrec : ∀ k, k + 1 = m → Returns type (exprEliminateDups2 T n) (s + 1) k) {e x1 x2 : Expr}
    {p1 p2 : Slot} (hs : e.size ≤ s + 1) (h1 : Below type e p1) (hget1 : e.get p1 = some x1)
    (h2 : Below type e p2) (hget2 : e.get p2 = some x2)
    (hm : spread type x1 + spread type x2 ≤ m) (count : Nat) :
    ∃ e' count', secondOperands (exprEliminateDups2 T n) type e x2 p1 p2 count = some (e', count') ∧
      Reduced T type Decides e count e' count' := by
  unfold secondOperands
  have hw : Walks T type Decides (exprEliminateDups2 T n) := exprEliminateDups2_walks n type
  cases hs2 : x2.split type with
  | some q =>
    obtain ⟨a, b⟩ := q
    obtain rfl := split_eq_some hs2
    rw [if_pos (by simp)]
    rw [spread_two] at hm
    obtain ⟨k, rfl⟩ : ∃ k, m = k + 1 := ⟨m - 1, by omega⟩
    obtain ⟨e', c, hwalk⟩ := walkSecond_returns hw (hrec k rfl) count hs h1 hget1 h2 hget2
      (by rw [spread_two]; omega)
    exact ⟨e', c, hwalk, walkSecond_reduced compatible_decides hw h1 h2 hget2 (by simp [hs2]) hwalk⟩
  | none =>
    rw [if_neg (by simp)]
    exact ⟨e, count, rfl, .refl compatible_decides e count⟩

/-- One level of the recursion of the second walk. -/
theorem exprEliminateDups2_returns_step {s m n : Nat}
    (hrec : ∀ k, k + 1 = m → Returns type (exprEliminateDups2 T n) (s + 1) k)
    (hwithin : ∀ type, Returns type (exprEliminateDups2 T n) s (2 * s))
    (hn : 20 * (s + 1) ≤ n) : Returns type (exprEliminateDups2 T (n + 1)) (s + 1) m := by
  intro e p1 p2 x1 x2 count hs h1 hget1 h2 hget2 hm
  simp only [exprEliminateDups2, hget1, hget2, Option.bind_eq_bind, Option.bind_some]
  have hw : ∀ type, Walks T type Decides (exprEliminateDups2 T n) := exprEliminateDups2_walks n
  cases hs1 : x1.split type with
  | some q =>
    obtain ⟨a, b⟩ := q
    obtain rfl := split_eq_some hs1
    rw [if_pos (by simp)]
    rw [spread_two] at hm
    obtain ⟨k, rfl⟩ : ∃ k, m = k + 1 := ⟨m - 1, by omega⟩
    exact walkFirst_returns (hw type) (hrec k rfl) count hs h1 hget1 h2 hget2
      (by rw [spread_two]; omega)
  | none =>
    rw [if_neg (by simp)]
    obtain ⟨e₁, c, hsecond, hred⟩ := secondOperands_returns hrec hs h1 hget1 h2 hget2 hm count
    rw [hsecond, Option.bind_some]
    dsimp only
    split_ifs with hp
    · exact ⟨_, _, rfl⟩
    · have hne := (Operand.mk h1 hget1 hs1).place_ne h2 hp
      obtain ⟨hb1, x1', hget1', hshape⟩ := hred.shape.at h1 hget1
      obtain ⟨hb2, -⟩ := hred.shape.at h2 hget2
      exact eliminateContrary_returns hw hwithin hn ⟨hb1, hget1', hshape.split_none hs1⟩ hb2
        (hred.size.trans hs) hne c

theorem exprEliminateDups2_returns (s : Nat) {m n : Nat} (hn : m + 1 + cost2 s ≤ n)
    (type : TwoType) : Returns type (exprEliminateDups2 T n) s m := by
  induction s generalizing m n type with
  | zero =>
    intro e p1 p2 x1 x2 count hs
    have := e.size_pos
    omega
  | succ s ihs =>
    have hcost := cost2_succ s
    have hcost' : 40 * (s + 1) ≤ cost2 (s + 1) := Nat.le_add_left _ _
    induction m generalizing n with
    | zero =>
      obtain ⟨k, rfl⟩ : ∃ k, n = k + 1 := ⟨n - 1, by omega⟩
      apply exprEliminateDups2_returns_step
      · intro j hj
        omega
      · exact fun type => ihs (by omega) type
      · omega
    | succ m ihm =>
      obtain ⟨k, rfl⟩ : ∃ k, n = k + 1 := ⟨n - 1, by omega⟩
      apply exprEliminateDups2_returns_step
      · intro j hj
        obtain rfl : j = m := by omega
        exact ihm (by omega)
      · exact fun type => ihs (by omega) type
      · omega

theorem dupsRound_returns (e : Expr) {n : Nat} (hn : 2 * e.size + cost2 e.size ≤ n) :
    ∃ e' count, dupsRound T n e = some (e', count) := by
  unfold dupsRound
  split
  · next type a b =>
    have hcost : cost1 (Expr.two type a b).size ≤ cost2 (Expr.two type a b).size := by
      unfold cost1 cost2
      omega
    have hspread := spread_lt_size type (.two type a b)
    obtain ⟨e₁, c₁, h₁⟩ := exprEliminateDups1_returns (T := T) (Expr.two type a b).size
      (m := 2 * spread type (.two type a b)) (n := n) (by omega) type _ [] [] _ _ 0 (le_refl _)
      (.here _) (get_here _) (.here _) (get_here _) (by omega)
    have hred := exprEliminateDups1_walks (T := T) n type (.here _) (.here _) h₁
    have hspread' := hred.shape.spread_eq
    obtain ⟨e₂, c₂, h₂⟩ := exprEliminateDups2_returns (T := T) (Expr.two type a b).size
      (m := 2 * spread type (.two type a b)) (n := n) (by omega) type e₁ [] [] _ _ c₁ hred.size
      (.here _) (get_here _) (.here _) (get_here _) (by omega)
    exact ⟨e₂, c₂, by simp [h₁, h₂]⟩
  · exact ⟨_, _, rfl⟩

theorem joinYn_lt {e1 e2 a b : Expr} (ha : a.size ≤ e1.size) (hb : b.size ≤ e2.size)
    (h : a.IsYn ∨ b.IsYn ∨ a.size < e1.size ∨ b.size < e2.size) :
    (joinYn type a b).size < e1.size + e2.size + 1 := by
  have hapos := a.size_pos
  have hbpos := b.size_pos
  unfold joinYn
  split_ifs with h₁ h₂ h₃ h₄
  · rw [Expr.size]
    omega
  · omega
  · rw [Expr.size]
    omega
  · omega
  · have hyn := not_isYn h₁ h₂
    have hyn' := not_isYn h₃ h₄
    rw [Expr.size]
    obtain h | h | h | h := h
    · exact absurd h hyn
    · exact absurd h hyn'
    · omega
    · omega

theorem isYn_eliminateYn {e : Expr} (h : e.IsYn) : (exprEliminateYn e).IsYn := by
  obtain rfl | rfl := h
  · exact Or.inl rfl
  · exact Or.inr rfl

/-- Where there is a constant to remove, the expression becomes smaller. -/
theorem exprEliminateYn_lt {e : Expr} (h : ¬ e.YnFree) : (exprEliminateYn e).size < e.size := by
  induction e with
  | symbol s => exact absurd trivial h
  | comp type s1 s2 => exact absurd trivial h
  | not e ih => exact absurd trivial h
  | two type e1 e2 ih1 ih2 =>
    rw [exprEliminateYn, Expr.size]
    apply joinYn_lt (exprEliminateYn_size e1) (exprEliminateYn_size e2)
    by_cases h1 : e1.IsYn
    · exact Or.inl (isYn_eliminateYn h1)
    · by_cases h2 : e2.IsYn
      · exact Or.inr (Or.inl (isYn_eliminateYn h2))
      · by_cases hf1 : e1.YnFree
        · by_cases hf2 : e2.YnFree
          · exact absurd ⟨h1, h2, hf1, hf2⟩ h
          · exact Or.inr (Or.inr (Or.inr (ih2 hf2)))
        · exact Or.inr (Or.inr (Or.inl (ih1 hf1)))

theorem cost2_mono {s s' : Nat} (h : s ≤ s') : cost2 s ≤ cost2 s' := by
  unfold cost2
  have := Nat.mul_le_mul h h
  omega

/-- The rounds end: each that changes something leaves a smaller expression. -/
theorem exprEliminateDups_returns (e : Expr) {n rounds : Nat}
    (hn : 2 * e.size + cost2 e.size ≤ n) (hrounds : e.size ≤ rounds) :
    ∃ e', exprEliminateDups T n rounds e = some e' := by
  induction rounds generalizing e with
  | zero =>
    have := e.size_pos
    omega
  | succ rounds ih =>
    obtain ⟨e₁, count, hround⟩ := dupsRound_returns (T := T) e hn
    obtain ⟨-, hsize, hchange⟩ := dupsRound_reduced hround
    simp only [exprEliminateDups, hround, Option.bind_eq_bind, Option.bind_some]
    split_ifs with hcount
    · exact ⟨e₁, rfl⟩
    · obtain ⟨-, hzero⟩ | ⟨hyn, -⟩ := hchange
      · exact absurd hzero hcount
      · have hlt := exprEliminateYn_lt hyn
        have hcost := cost2_mono (show (exprEliminateYn e₁).size ≤ e.size by omega)
        exact ih _ (by omega) (by omega)

/-- `expr_eliminate_dups` returns an expression that has no more duplicates, and where the
expression was "y" or "n" this is what is returned. -/
theorem exprEliminateDups_correct (T : Table) (e : Expr) {n rounds : Nat}
    (hn : 2 * e.size + cost2 e.size ≤ n) (hrounds : e.size ≤ rounds) :
    ∃ e', exprEliminateDups T n rounds e = some e' ∧
      (∀ V : Values T, e.value V ≠ .mod → e'.value V = e.value V) ∧
      dupsRound T n e' = some (e', 0) := by
  obtain ⟨e', he'⟩ := exprEliminateDups_returns (T := T) e hn hrounds
  obtain ⟨hvalue, hround⟩ := exprEliminateDups_decides he'
  exact ⟨e', he', hvalue, hround⟩

end

/-- `(FOO || BAR) && (!FOO && !BAR)`, which is "m" where one of the two is "m" -/
def contrary : Expr :=
  .two .and (.two .or (.symbol (.config (ascii "FOO"))) (.symbol (.config (ascii "BAR"))))
    (.two .and (.not (.symbol (.config (ascii "FOO")))) (.not (.symbol (.config (ascii "BAR")))))

theorem exprEliminateDups_correct_contrary :
    ∃ e', exprEliminateDups tristates 459 9 contrary = some e' ∧
      (∀ V : Values tristates, contrary.value V ≠ .mod → e'.value V = contrary.value V) ∧
      dupsRound tristates 459 e' = some (e', 0) :=
  exprEliminateDups_correct tristates contrary (by decide) (by decide)

example : exprEliminateDups tristates 459 9 contrary = some (.symbol symbolNo) := by
  decide +kernel

end Lichee.Kconfig

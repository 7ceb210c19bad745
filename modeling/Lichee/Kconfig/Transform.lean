import Lichee.Kconfig.Expr

/- The normal form of a dependency (package/config/expr.c, `expr_transform`). Negations go down
   to the symbols and the comparisons of a boolean symbol with "y", "m" and "n" become the
   symbol, its negation or a constant. The function starts again on each connective it turned
   over, so it is cut off at a depth here, and a depth of twice the height of the expression is
   enough (`exprTransform_returns`). The value stays the same, and what is returned is its own
   normal form. -/
namespace Lichee.Kconfig
open Base

/-- The other comparison. -/
def CompType.flip : CompType → CompType
  | .equal => .unequal
  | .unequal => .equal

/-- The other connective. -/
def TwoType.flip : TwoType → TwoType
  | .or => .and
  | .and => .or

/-- A comparison in `expr_transform`. -/
def transComp (T : Table) (type : CompType) (s1 s2 : Symbol) : Expr :=
  if T.type s1 ≠ .boolean then .comp type s1 s2
  else match type with
    | .equal =>
      if s2 = symbolNo then .not (.symbol s1)
      else if s2 = symbolMod then .symbol symbolNo
      else if s2 = symbolYes then .symbol s1
      else .comp .equal s1 s2
    | .unequal =>
      if s2 = symbolNo then .symbol s1
      else if s2 = symbolMod then .symbol symbolYes
      else if s2 = symbolYes then .not (.symbol s1)
      else .comp .unequal s1 s2

/-- The negation of a symbol in `expr_transform`. -/
def transNotSymbol (s : Symbol) : Expr :=
  if s = symbolYes then .symbol symbolNo
  else if s = symbolMod then .symbol symbolMod
  else if s = symbolNo then .symbol symbolYes
  else .not (.symbol s)

/-- `expr_transform`, cut off at a depth of the recursion. -/
def exprTransform (T : Table) : Nat → Expr → Option Expr
  | 0, _ => none
  | _ + 1, .symbol s => some (.symbol s)
  | _ + 1, .comp type s1 s2 => some (transComp T type s1 s2)
  | n + 1, .two type e1 e2 => do
    let e1 ← exprTransform T n e1
    let e2 ← exprTransform T n e2
    some (.two type e1 e2)
  | n + 1, .not e => do
    match ← exprTransform T n e with
    | .not e => exprTransform T n e
    | .comp type s1 s2 => some (.comp type.flip s1 s2)
    -- De Morgan; the result is transformed once more
    | .two type e1 e2 => exprTransform T n (.two type.flip (.not e1) (.not e2))
    | .symbol s => some (transNotSymbol s)

/-! ## The value -/

section
variable {T : Table}

theorem CompType.value_flip (type : CompType) (b : Bool) :
    type.flip.value b = exprNot (type.value b) := by
  cases type <;> cases b <;> rfl

theorem TwoType.op_flip (type : TwoType) (a b : Tristate) :
    type.flip.op (exprNot a) (exprNot b) = exprNot (type.op a b) := by
  cases type <;> cases a <;> cases b <;> rfl

/-- The text of a boolean symbol against a constant's name. -/
theorem boolean_text (V : Values T) {s : Symbol} (hs : T.type s = .boolean) :
    V.tri s = .no ∧ V.symGetStringValue s = ascii "n" ∨
      V.tri s = .yes ∧ V.symGetStringValue s = ascii "y" := by
  have hmod := V.boolean_tri s hs
  unfold Values.symGetStringValue
  rw [hs]
  cases h : V.tri s with
  | no => exact Or.inl ⟨rfl, rfl⟩
  | mod => exact absurd h hmod
  | yes => exact Or.inr ⟨rfl, rfl⟩

@[simp] theorem const_text (V : Values T) (name : List UInt8) :
    V.symGetStringValue (.const name) = name := by
  unfold Values.symGetStringValue
  rw [T.const_type]
  exact V.const_val name

theorem transComp_value (V : Values T) (type : CompType) (s1 s2 : Symbol) :
    (transComp T type s1 s2).value V = (Expr.comp type s1 s2).value V := by
  unfold transComp
  by_cases hb : T.type s1 = .boolean
  · have hcases := boolean_text V hb
    simp only [hb, ne_eq, not_true_eq_false, if_false]
    cases type with
    | equal =>
      dsimp only
      split_ifs with hn hm hy
      · subst hn
        obtain ⟨ht, hs⟩ | ⟨ht, hs⟩ := hcases <;> simp [Expr.value, ht, hs, symbolNo] <;> rfl
      · subst hm
        obtain ⟨ht, hs⟩ | ⟨ht, hs⟩ := hcases <;> simp [Expr.value, hs, V.no_tri, symbolMod] <;> rfl
      · subst hy
        obtain ⟨ht, hs⟩ | ⟨ht, hs⟩ := hcases <;> simp [Expr.value, ht, hs, symbolYes] <;> rfl
      · rfl
    | unequal =>
      dsimp only
      split_ifs with hn hm hy
      · subst hn
        obtain ⟨ht, hs⟩ | ⟨ht, hs⟩ := hcases <;> simp [Expr.value, ht, hs, symbolNo] <;> rfl
      · subst hm
        obtain ⟨ht, hs⟩ | ⟨ht, hs⟩ := hcases <;> simp [Expr.value, hs, V.yes_tri, symbolMod] <;> rfl
      · subst hy
        obtain ⟨ht, hs⟩ | ⟨ht, hs⟩ := hcases <;> simp [Expr.value, ht, hs, symbolYes] <;> rfl
      · rfl
  · simp [hb]

theorem transNotSymbol_value (V : Values T) (s : Symbol) :
    (transNotSymbol s).value V = exprNot (V.tri s) := by
  unfold transNotSymbol
  split_ifs with hy hm hn
  · rw [hy, V.yes_tri]
    exact V.no_tri
  · rw [hm, V.mod_tri]
    exact V.mod_tri
  · rw [hn, V.no_tri]
    exact V.yes_tri
  · rfl

/-- The value of an expression is the value of its normal form. -/
theorem exprTransform_value (V : Values T) {n : Nat} {e e' : Expr}
    (h : exprTransform T n e = some e') : e'.value V = e.value V := by
  induction n generalizing e e' with
  | zero => cases h
  | succ n ih =>
    cases e with
    | symbol s =>
      cases h
      rfl
    | comp type s1 s2 =>
      cases h
      exact transComp_value V type s1 s2
    | two type e1 e2 =>
      simp only [exprTransform, Option.bind_eq_bind, Option.bind_eq_some_iff] at h
      obtain ⟨a, ha, b, hb, h⟩ := h
      cases h
      rw [Expr.value, ih ha, ih hb, Expr.value]
    | not e =>
      simp only [exprTransform, Option.bind_eq_bind, Option.bind_eq_some_iff] at h
      obtain ⟨a, ha, h⟩ := h
      have hv := ih ha
      rw [Expr.value, ← hv]
      -- the operand of a negation is transformed first, and then what it has become is negated
      cases a with
      | symbol s =>
        cases h
        exact transNotSymbol_value V s
      | comp type s1 s2 =>
        cases h
        exact type.value_flip _
      | not b => rw [ih h, Expr.value, exprNot_not]
      | two type b1 b2 =>
        rw [ih h]
        exact type.op_flip _ _

/-! ## The normal form -/

/-- The constants that `expr_transform` knows. -/
def Symbol.IsYmn (s : Symbol) : Prop := s = symbolYes ∨ s = symbolMod ∨ s = symbolNo

/-- Negations stand before symbols only, none of them "y", "m" or "n", and no boolean symbol is
compared with these. -/
def Expr.Normal (T : Table) : Expr → Prop
  | .symbol _ => True
  | .comp _ s1 s2 => T.type s1 = .boolean → ¬ s2.IsYmn
  | .not (.symbol s) => ¬ s.IsYmn
  | .not _ => False
  | .two _ e1 e2 => e1.Normal T ∧ e2.Normal T

/-- The height of an expression. -/
def Expr.height : Expr → Nat
  | .symbol _ => 0
  | .comp .. => 0
  | .not e => e.height + 1
  | .two _ e1 e2 => max e1.height e2.height + 1

/-- The depth of the connectives. -/
def Expr.depth : Expr → Nat
  | .symbol _ => 0
  | .comp .. => 0
  | .not e => e.depth
  | .two _ e1 e2 => max e1.depth e2.depth + 1

theorem isYmn_const {s : Symbol} (h : s.IsYmn) : ∃ name, s = .const name := by
  obtain rfl | rfl | rfl := h
  · exact ⟨_, rfl⟩
  · exact ⟨_, rfl⟩
  · exact ⟨_, rfl⟩

theorem boolean_not_isYmn {s : Symbol} (hs : T.type s = .boolean) : ¬ s.IsYmn := by
  intro h
  obtain ⟨name, rfl⟩ := isYmn_const h
  rw [T.const_type] at hs
  cases hs

theorem transComp_normal (type : CompType) (s1 s2 : Symbol) :
    (transComp T type s1 s2).Normal T ∧ (transComp T type s1 s2).depth = 0 := by
  unfold transComp
  by_cases hb : T.type s1 = .boolean
  · simp only [hb, ne_eq, not_true_eq_false, if_false]
    have hs := boolean_not_isYmn hb
    cases type <;> dsimp only <;> split_ifs with hn hm hy <;>
      simp_all [Expr.Normal, Expr.depth, Symbol.IsYmn]
  · simp [hb, Expr.Normal, Expr.depth]

theorem transComp_of_normal {type : CompType} {s1 s2 : Symbol}
    (h : T.type s1 = .boolean → ¬ s2.IsYmn) : transComp T type s1 s2 = .comp type s1 s2 := by
  unfold transComp
  by_cases hb : T.type s1 = .boolean
  · have hs := h hb
    simp only [Symbol.IsYmn, not_or] at hs
    obtain ⟨hy, hm, hn⟩ := hs
    cases type <;> simp [hb, hy, hm, hn]
  · simp [hb]

theorem transNotSymbol_of_normal {s : Symbol} (h : ¬ s.IsYmn) :
    transNotSymbol s = .not (.symbol s) := by
  simp only [Symbol.IsYmn, not_or] at h
  obtain ⟨hy, hm, hn⟩ := h
  simp [transNotSymbol, hy, hm, hn]

theorem transNotSymbol_normal (s : Symbol) :
    (transNotSymbol s).Normal T ∧ (transNotSymbol s).depth = 0 := by
  unfold transNotSymbol
  split_ifs with hy hm hn
  · exact ⟨trivial, rfl⟩
  · exact ⟨trivial, rfl⟩
  · exact ⟨trivial, rfl⟩
  · refine ⟨?_, rfl⟩
    intro h
    obtain rfl | rfl | rfl := h
    · exact hy rfl
    · exact hm rfl
    · exact hn rfl

/-- A normal form is its own normal form. -/
theorem exprTransform_normal {e : Expr} (he : e.Normal T) {n : Nat} (hn : e.depth + 2 ≤ n) :
    exprTransform T n e = some e := by
  obtain ⟨m, rfl⟩ : ∃ m, n = m + 2 := ⟨n - 2, by omega⟩
  induction e generalizing m with
  | symbol s => rfl
  | comp type s1 s2 => rw [exprTransform, transComp_of_normal he]
  | not e ih =>
    cases e with
    | symbol s =>
      change some (transNotSymbol s) = _
      rw [transNotSymbol_of_normal he]
    | comp type s1 s2 => exact he.elim
    | not e => exact he.elim
    | two type e1 e2 => exact he.elim
  | two type e1 e2 ih1 ih2 =>
    simp only [Expr.depth] at hn
    obtain ⟨k, rfl⟩ : ∃ k, m = k + 1 := ⟨m - 1, by omega⟩
    simp [exprTransform, ih1 he.1 k (by omega), ih2 he.2 k (by omega)]

/-- The negation of a normal form goes down to its symbols. -/
theorem exprTransform_not {e : Expr} (he : e.Normal T) {n : Nat} (hn : 2 * e.depth + 3 ≤ n) :
    ∃ e', exprTransform T n (.not e) = some e' ∧ e'.Normal T ∧ e'.depth = e.depth := by
  obtain ⟨m, rfl⟩ : ∃ m, n = m + 3 := ⟨n - 3, by omega⟩
  have hself := exprTransform_normal he (show e.depth + 2 ≤ m + 2 by omega)
  induction e generalizing m with
  | symbol s => exact ⟨transNotSymbol s, rfl, transNotSymbol_normal s⟩
  | comp type s1 s2 =>
    refine ⟨.comp type.flip s1 s2, ?_, he, rfl⟩
    simp [exprTransform, transComp_of_normal he]
  | not e ih =>
    refine ⟨e, ?_, ?_⟩
    · rw [exprTransform, hself]
      cases e with
      | symbol s => rfl
      | comp type s1 s2 => exact he.elim
      | not e => exact he.elim
      | two type e1 e2 => exact he.elim
    · cases e with
      | symbol s => exact ⟨trivial, rfl⟩
      | comp type s1 s2 => exact he.elim
      | not e => exact he.elim
      | two type e1 e2 => exact he.elim
  | two type e1 e2 ih1 ih2 =>
    simp only [Expr.depth] at hn
    obtain ⟨k, rfl⟩ : ∃ k, m = k + 2 := ⟨m - 2, by omega⟩
    -- the connective is turned over, and the negations start one connective further down
    obtain ⟨a, ha, han, had⟩ := ih1 he.1 k (by omega) (exprTransform_normal he.1 (by omega))
    obtain ⟨b, hb, hbn, hbd⟩ := ih2 he.2 k (by omega) (exprTransform_normal he.2 (by omega))
    refine ⟨.two type.flip a b, ?_, ⟨han, hbn⟩, ?_⟩
    · rw [exprTransform, hself]
      simp only [Option.bind_eq_bind, Option.bind_some]
      rw [exprTransform]
      simp [ha, hb]
    · simp only [Expr.depth, had, hbd]

/-- The function returns, and what it returns is a normal form. -/
theorem exprTransform_returns (e : Expr) {n : Nat} (hn : 2 * e.height + 3 ≤ n) :
    ∃ e', exprTransform T n e = some e' ∧ e'.Normal T ∧ e'.depth ≤ e.height := by
  obtain ⟨m, rfl⟩ : ∃ m, n = m + 1 := ⟨n - 1, by omega⟩
  induction e generalizing m with
  | symbol s => exact ⟨.symbol s, rfl, trivial, le_refl _⟩
  | comp type s1 s2 =>
    obtain ⟨hnormal, hdepth⟩ := transComp_normal (T := T) type s1 s2
    exact ⟨transComp T type s1 s2, rfl, hnormal, hdepth.le⟩
  | two type e1 e2 ih1 ih2 =>
    simp only [Expr.height] at hn
    obtain ⟨k, rfl⟩ : ∃ k, m = k + 1 := ⟨m - 1, by omega⟩
    obtain ⟨a, ha, han, had⟩ := ih1 k (by omega)
    obtain ⟨b, hb, hbn, hbd⟩ := ih2 k (by omega)
    refine ⟨.two type a b, ?_, ⟨han, hbn⟩, ?_⟩
    · rw [exprTransform]
      simp [ha, hb]
    · simp only [Expr.depth, Expr.height]
      omega
  | not e ih =>
    simp only [Expr.height] at hn ⊢
    obtain ⟨k, rfl⟩ : ∃ k, m = k + 1 := ⟨m - 1, by omega⟩
    obtain ⟨a, ha, han, had⟩ := ih k (by omega)
    -- the operand is a normal form now, so its negation is as in `exprTransform_not`
    obtain ⟨b, hb, hbn, hbd⟩ := exprTransform_not han (show 2 * a.depth + 3 ≤ k + 2 by omega)
    refine ⟨b, ?_, hbn, by omega⟩
    rw [← hb, exprTransform, exprTransform, ha, exprTransform_normal han (by omega)]

/-- The number of symbols and comparisons. -/
def Expr.leaves : Expr → Nat
  | .symbol _ => 1
  | .comp .. => 1
  | .not e => e.leaves
  | .two _ e1 e2 => e1.leaves + e2.leaves

theorem leaves_le_size (e : Expr) : e.leaves ≤ e.size := by
  induction e with
  | symbol s => exact le_refl _
  | comp type s1 s2 => exact le_refl _
  | not e ih =>
    rw [Expr.leaves, Expr.size]
    omega
  | two type e1 e2 ih1 ih2 =>
    rw [Expr.leaves, Expr.size]
    omega

theorem normal_size {e : Expr} (h : e.Normal T) : e.size + 1 ≤ 3 * e.leaves := by
  induction e with
  | symbol s => exact Nat.le_succ 2
  | comp type s1 s2 => exact Nat.le_succ 2
  | not e ih =>
    cases e with
    | symbol s => exact le_refl _
    | comp type s1 s2 => exact h.elim
    | not e => exact h.elim
    | two type e1 e2 => exact h.elim
  | two type e1 e2 ih1 ih2 =>
    have := ih1 h.1
    have := ih2 h.2
    rw [Expr.leaves, Expr.size]
    omega

theorem transComp_leaves (type : CompType) (s1 s2 : Symbol) :
    (transComp T type s1 s2).leaves = 1 := by
  unfold transComp
  cases type <;> dsimp only <;> split_ifs <;> rfl

theorem transNotSymbol_leaves (s : Symbol) : (transNotSymbol s).leaves = 1 := by
  unfold transNotSymbol
  split_ifs <;> rfl

theorem exprTransform_leaves {n : Nat} {e e' : Expr} (h : exprTransform T n e = some e') :
    e'.leaves = e.leaves := by
  induction n generalizing e e' with
  | zero => cases h
  | succ n ih =>
    cases e with
    | symbol s =>
      cases h
      rfl
    | comp type s1 s2 =>
      cases h
      exact transComp_leaves type s1 s2
    | two type e1 e2 =>
      simp only [exprTransform, Option.bind_eq_bind, Option.bind_eq_some_iff] at h
      obtain ⟨a, ha, b, hb, h⟩ := h
      cases h
      rw [Expr.leaves, ih ha, ih hb, Expr.leaves]
    | not e =>
      simp only [exprTransform, Option.bind_eq_bind, Option.bind_eq_some_iff] at h
      obtain ⟨a, ha, h⟩ := h
      rw [Expr.leaves, ← ih ha]
      cases a with
      | symbol s =>
        cases h
        exact transNotSymbol_leaves s
      | comp type s1 s2 =>
        cases h
        rfl
      | not b => rw [ih h, Expr.leaves]
      | two type b1 b2 =>
        rw [ih h]
        rfl

/-- The normal form is at most three times as large. -/
theorem exprTransform_size (T : Table) (e : Expr) {n : Nat} (hn : 2 * e.height + 3 ≤ n) :
    ∃ e', exprTransform T n e = some e' ∧ e'.size ≤ 3 * e.size := by
  obtain ⟨e', he', hnormal, -⟩ := exprTransform_returns (T := T) e hn
  have hsize := normal_size hnormal
  have hleaves := exprTransform_leaves he'
  have := leaves_le_size e
  exact ⟨e', he', by omega⟩

theorem height_lt_size (e : Expr) : e.height < e.size := by
  induction e with
  | symbol s => exact Nat.one_pos
  | comp type s1 s2 => exact Nat.one_pos
  | not e ih =>
    rw [Expr.height, Expr.size]
    omega
  | two type e1 e2 ih1 ih2 =>
    rw [Expr.height, Expr.size]
    omega

/-- `expr_transform` returns a normal form of the same value, which it would leave as it is. -/
theorem exprTransform_correct (e : Expr) {n : Nat} (hn : 2 * e.height + 3 ≤ n) :
    ∃ e', exprTransform T n e = some e' ∧ e'.Normal T ∧
      (∀ V : Values T, e'.value V = e.value V) ∧
      ∀ m, e'.depth + 2 ≤ m → exprTransform T m e' = some e' := by
  obtain ⟨e', he', hnormal, -⟩ := exprTransform_returns (T := T) e hn
  exact ⟨e', he', hnormal, fun V => exprTransform_value V he',
    fun m hm => exprTransform_normal hnormal hm⟩

end

/-- `!(FOO && BAR)` -/
theorem exprTransform_correct_and :
    ∃ e', exprTransform tristates 7 (.not (.two .and (.symbol (.config (ascii "FOO")))
        (.symbol (.config (ascii "BAR"))))) = some e' ∧ e'.Normal tristates ∧
      (∀ V : Values tristates, e'.value V = Expr.value V (.not (.two .and
        (.symbol (.config (ascii "FOO"))) (.symbol (.config (ascii "BAR")))))) ∧
      ∀ m, e'.depth + 2 ≤ m → exprTransform tristates m e' = some e' :=
  exprTransform_correct _ (by decide)

end Lichee.Kconfig

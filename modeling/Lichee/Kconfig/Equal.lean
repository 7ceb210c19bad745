import Lichee.Kconfig.Expr

/- Equal parts of two expressions (package/config/expr.c). `expr_eq` compares copies of two
   connectives by taking out of them what they have in common (`expr_eliminate_eq`), and this
   compares the operands with `expr_eq`; both go down in the two expressions together, so a
   depth of the recursion cuts them off here. Two expressions that are found equal have the same
   value (`exprEq_value`), and after `expr_eliminate_eq` what is left of the expressions is
   ordered as the expressions are (`exprEliminateEq_le`). -/
namespace Lichee.Kconfig
open Base

/-- The operands, where `e->type == type`. -/
def Expr.split (type : TwoType) : Expr → Option (Expr × Expr)
  | .two type' e1 e2 => if type' = type then some (e1, e2) else none
  | _ => none

/-- What `__expr_eliminate_eq` leaves of two operands. -/
def eliminated (type : TwoType) (e1 e2 : Expr) (eq : Bool) : Expr × Expr :=
  if eq then (.symbol type.unit, .symbol type.unit) else (e1, e2)

/-- Whether both are one symbol. -/
def sameSymbol : Expr × Expr → Bool
  | (.symbol s, .symbol s') => s == s'
  | _ => false

/-- The switch on `e1->type` in `expr_eliminate_eq`. -/
def switchFirst (eliminate : TwoType → Expr → Expr → Option (Expr × Expr)) (e1 e2 : Expr) :
    Option (Expr × Expr) :=
  match e1 with
  | .two type _ _ => eliminate type e1 e2
  | _ => some (e1, e2)

/-- The switch on `e2->type`, where the two types differ. -/
def switchSecond (eliminate : TwoType → Expr → Expr → Option (Expr × Expr)) (e1 e2 : Expr) :
    Option (Expr × Expr) :=
  match e2 with
  | .two type _ _ => if e1.split type = none then eliminate type e1 e2 else some (e1, e2)
  | _ => some (e1, e2)

mutual

/-- `expr_eq`, cut off at a depth of the recursion. -/
def exprEq : Nat → Expr → Expr → Option Bool
  | 0, _, _ => none
  | _ + 1, .comp type s1 s2, .comp type' s1' s2' =>
    some (type = type' && s1 == s1' && s2 == s2')
  | _ + 1, .symbol s, .symbol s' => some (s == s')
  | n + 1, .not e1, .not e2 => exprEq n e1 e2
  | n + 1, .two type l r, .two type' l' r' =>
    if type = type' then (exprEliminateEq n (.two type l r) (.two type' l' r')).map sameSymbol
    else some false
  | _ + 1, _, _ => some false

/-- `__expr_eliminate_eq` -/
def eliminateEq : Nat → TwoType → Expr → Expr → Option (Expr × Expr)
  | 0, _, _, _ => none
  | n + 1, type, e1, e2 =>
    match e1.split type, e2.split type with
    | some (left, right), _ => do
      let (left, e2) ← eliminateEq n type left e2
      let (right, e2) ← eliminateEq n type right e2
      some (.two type left right, e2)
    | none, some (left, right) => do
      let (e1, left) ← eliminateEq n type e1 left
      let (e1, right) ← eliminateEq n type e1 right
      some (e1, .two type left right)
    | none, none =>
      -- "y" and "n" are what an operand is replaced by, so they are not taken out again
      if e1 = e2 ∧ (e1 = .symbol symbolYes ∨ e1 = .symbol symbolNo) then some (e1, e2)
      else (exprEq n e1 e2).map (eliminated type e1 e2)

/-- `expr_eliminate_eq` of two expressions there are -/
def exprEliminateEq : Nat → Expr → Expr → Option (Expr × Expr)
  | 0, _, _ => none
  | n + 1, e1, e2 => do
    let (e1, e2) ← switchFirst (eliminateEq n) e1 e2
    let (e1, e2) ← switchSecond (eliminateEq n) e1 e2
    some (exprEliminateYn e1, exprEliminateYn e2)

end

/-- `expr_extract_eq`. The first of the three is `*ep`. -/
def exprExtractEq : Nat → TwoType → Option Expr → Expr → Expr →
    Option (Option Expr × Expr × Expr)
  | 0, _, _, _, _ => none
  | n + 1, type, ep, e1, e2 =>
    match e1.split type, e2.split type with
    | some (left, right), _ => do
      let (ep, left, e2) ← exprExtractEq n type ep left e2
      let (ep, right, e2) ← exprExtractEq n type ep right e2
      some (ep, .two type left right, e2)
    | none, some (left, right) => do
      let (ep, e1, left) ← exprExtractEq n type ep e1 left
      let (ep, e1, right) ← exprExtractEq n type ep e1 right
      some (ep, e1, .two type left right)
    | none, none => (exprEq n e1 e2).map fun eq =>
      (if eq then exprAllocTwo type ep (some e1) else ep, eliminated type e1 e2 eq)

/-- `expr_extract_eq_and` and `expr_extract_eq_or` -/
def exprExtractEqTwo (n : Nat) (type : TwoType) (e1 e2 : Expr) :
    Option (Option Expr × Expr × Expr) :=
  (exprExtractEq n type none e1 e2).map fun (tmp, e1, e2) =>
    if tmp.isSome then (tmp, exprEliminateYn e1, exprEliminateYn e2) else (tmp, e1, e2)

/-! ## What the steps of the recursion are -/

theorem split_eq_some {type : TwoType} {e e1 e2 : Expr} (h : e.split type = some (e1, e2)) :
    e = .two type e1 e2 := by
  cases e with
  | two type' a b =>
    simp only [Expr.split] at h
    split_ifs at h with ht
    cases h
    rw [ht]
  | symbol s => cases h
  | comp t a b => cases h
  | not e => cases h

/-- The four ways `__expr_eliminate_eq` goes on. -/
theorem eliminateEq_cases {n : Nat} {type : TwoType} {e1 e2 : Expr} {r : Expr × Expr}
    (h : eliminateEq (n + 1) type e1 e2 = some r) :
    (∃ a b a' b' e e', e1 = .two type a b ∧ eliminateEq n type a e2 = some (a', e) ∧
      eliminateEq n type b e = some (b', e') ∧ r = (.two type a' b', e')) ∨
    (∃ a b a' b' e e', e2 = .two type a b ∧ eliminateEq n type e1 a = some (e, a') ∧
      eliminateEq n type e b = some (e', b') ∧ r = (e', .two type a' b')) ∨
    r = (e1, e2) ∨
    (exprEq n e1 e2 = some true ∧ r = (.symbol type.unit, .symbol type.unit)) := by
  rw [eliminateEq] at h
  cases h₁ : e1.split type with
  | some p =>
    left
    obtain ⟨a, b⟩ := p
    simp only [h₁, Option.bind_eq_bind, Option.bind_eq_some_iff, Prod.exists] at h
    obtain ⟨a', e, ha, b', e', hb, h⟩ := h
    cases h
    exact ⟨a, b, a', b', e, e', split_eq_some h₁, ha, hb, rfl⟩
  | none =>
    right
    cases h₂ : e2.split type with
    | some p =>
      left
      obtain ⟨a, b⟩ := p
      simp only [h₁, h₂, Option.bind_eq_bind, Option.bind_eq_some_iff, Prod.exists] at h
      obtain ⟨e, a', ha, e', b', hb, h⟩ := h
      cases h
      exact ⟨a, b, a', b', e, e', split_eq_some h₂, ha, hb, rfl⟩
    | none =>
      right
      simp only [h₁, h₂] at h
      split_ifs at h
      · cases h
        exact Or.inl rfl
      · simp only [Option.map_eq_some_iff] at h
        obtain ⟨eq, heq, h⟩ := h
        cases eq with
        | false => exact Or.inl h.symm
        | true => exact Or.inr ⟨heq, h.symm⟩

theorem exprExtractEq_cases {n : Nat} {type : TwoType} {ep : Option Expr} {e1 e2 : Expr}
    {r : Option Expr × Expr × Expr} (h : exprExtractEq (n + 1) type ep e1 e2 = some r) :
    (∃ a b a' b' e e' p p', e1 = .two type a b ∧ exprExtractEq n type ep a e2 = some (p, a', e) ∧
      exprExtractEq n type p b e = some (p', b', e') ∧ r = (p', .two type a' b', e')) ∨
    (∃ a b a' b' e e' p p', e2 = .two type a b ∧ exprExtractEq n type ep e1 a = some (p, e, a') ∧
      exprExtractEq n type p e b = some (p', e', b') ∧ r = (p', e', .two type a' b')) ∨
    r = (ep, e1, e2) ∨
    (exprEq n e1 e2 = some true ∧
      r = (exprAllocTwo type ep (some e1), .symbol type.unit, .symbol type.unit)) := by
  rw [exprExtractEq] at h
  cases h₁ : e1.split type with
  | some p =>
    left
    obtain ⟨a, b⟩ := p
    simp only [h₁, Option.bind_eq_bind, Option.bind_eq_some_iff, Prod.exists] at h
    obtain ⟨p, a', e, ha, p', b', e', hb, h⟩ := h
    cases h
    exact ⟨a, b, a', b', e, e', p, p', split_eq_some h₁, ha, hb, rfl⟩
  | none =>
    right
    cases h₂ : e2.split type with
    | some p =>
      left
      obtain ⟨a, b⟩ := p
      simp only [h₁, h₂, Option.bind_eq_bind, Option.bind_eq_some_iff, Prod.exists] at h
      obtain ⟨p, e, a', ha, p', e', b', hb, h⟩ := h
      cases h
      exact ⟨a, b, a', b', e, e', p, p', split_eq_some h₂, ha, hb, rfl⟩
    | none =>
      right
      simp only [h₁, h₂, Option.map_eq_some_iff] at h
      obtain ⟨eq, heq, h⟩ := h
      cases eq with
      | false => exact Or.inl h.symm
      | true => exact Or.inr ⟨heq, h.symm⟩

/-- Two expressions are found equal in three ways. -/
theorem exprEq_cases {n : Nat} {e1 e2 : Expr} (h : exprEq (n + 1) e1 e2 = some true) :
    e1 = e2 ∨ (∃ a b, e1 = .not a ∧ e2 = .not b ∧ exprEq n a b = some true) ∨
      ∃ p, exprEliminateEq n e1 e2 = some p ∧ sameSymbol p = true := by
  cases e1 with
  | symbol s =>
    cases e2 with
    | symbol s' =>
      left
      simpa [exprEq] using h
    | _ => simp [exprEq] at h
  | comp type s1 s2 =>
    cases e2 with
    | comp type' s1' s2' =>
      left
      simpa [exprEq, and_assoc] using h
    | _ => simp [exprEq] at h
  | not a =>
    cases e2 with
    | not b =>
      right
      left
      exact ⟨a, b, rfl, rfl, by simpa [exprEq] using h⟩
    | _ => simp [exprEq] at h
  | two type a b =>
    cases e2 with
    | two type' a' b' =>
      right
      right
      rw [exprEq] at h
      split_ifs at h with ht
      · simpa only [Option.map_eq_some_iff] using h
      · cases h
    | _ => simp [exprEq] at h

theorem switchFirst_cases {eliminate : TwoType → Expr → Expr → Option (Expr × Expr)}
    {e1 e2 : Expr} {r : Expr × Expr} (h : switchFirst eliminate e1 e2 = some r) :
    r = (e1, e2) ∨ ∃ type, eliminate type e1 e2 = some r := by
  cases e1 with
  | two type a b => exact Or.inr ⟨type, h⟩
  | _ =>
    left
    exact (Option.some.inj h).symm

theorem switchSecond_cases {eliminate : TwoType → Expr → Expr → Option (Expr × Expr)}
    {e1 e2 : Expr} {r : Expr × Expr} (h : switchSecond eliminate e1 e2 = some r) :
    r = (e1, e2) ∨ ∃ type, eliminate type e1 e2 = some r := by
  cases e2 with
  | two type a b =>
    simp only [switchSecond] at h
    split_ifs at h
    · exact Or.inr ⟨type, h⟩
    · exact Or.inl (Option.some.inj h).symm
  | _ =>
    left
    exact (Option.some.inj h).symm

/-- `expr_eliminate_eq` goes through the operands of one connective, and of another. -/
theorem exprEliminateEq_cases {n : Nat} {e1 e2 e1' e2' : Expr}
    (h : exprEliminateEq (n + 1) e1 e2 = some (e1', e2')) :
    ∃ a b c d, ((a, b) = (e1, e2) ∨ ∃ type, eliminateEq n type e1 e2 = some (a, b)) ∧
      ((c, d) = (a, b) ∨ ∃ type, eliminateEq n type a b = some (c, d)) ∧
      e1' = exprEliminateYn c ∧ e2' = exprEliminateYn d := by
  simp only [exprEliminateEq, Option.bind_eq_bind, Option.bind_eq_some_iff, Prod.exists] at h
  obtain ⟨a, b, h₁, c, d, h₂, h⟩ := h
  cases h
  exact ⟨a, b, c, d, switchFirst_cases h₁, switchSecond_cases h₂, rfl, rfl⟩

/-! ## The values -/

section
variable {T : Table}

/-- What is left of two expressions, as far as their order is concerned. -/
def Reflects (V : Values T) (e1 e2 e1' e2' : Expr) : Prop :=
  (e1'.value V ≤ e2'.value V → e1.value V ≤ e2.value V) ∧
    (e2'.value V ≤ e1'.value V → e2.value V ≤ e1.value V)

theorem Reflects.refl (V : Values T) (e1 e2 : Expr) : Reflects V e1 e2 e1 e2 := ⟨id, id⟩

theorem Reflects.trans {V : Values T} {a b a₁ b₁ a₂ b₂ : Expr} (h : Reflects V a b a₁ b₁)
    (h' : Reflects V a₁ b₁ a₂ b₂) : Reflects V a b a₂ b₂ :=
  ⟨fun hle => h.1 (h'.1 hle), fun hle => h.2 (h'.2 hle)⟩

theorem Reflects.of_cancels {V : Values T} {type : TwoType} {a b a' b' : Expr}
    (h : Cancels type.op (a.value V) (b.value V) (a'.value V) (b'.value V)) :
    Reflects V a b a' b' :=
  ⟨h.le type.op_mono, h.symm.le type.op_mono⟩

theorem Reflects.eliminateYn {V : Values T} {a b a' b' : Expr} (h : Reflects V a b a' b') :
    Reflects V a b (exprEliminateYn a') (exprEliminateYn b') := by
  unfold Reflects at h ⊢
  rwa [exprEliminateYn_value, exprEliminateYn_value]

/-- What the three functions keep, at one depth. -/
structure EqualSound (n : Nat) : Prop where
  exprEq : ∀ {e1 e2 : Expr}, exprEq n e1 e2 = some true →
    ∀ {T : Table} (V : Values T), e1.value V = e2.value V
  eliminateEq : ∀ {type : TwoType} {e1 e2 e1' e2' : Expr},
    eliminateEq n type e1 e2 = some (e1', e2') → ∀ {T : Table} (V : Values T),
    Cancels type.op (e1.value V) (e2.value V) (e1'.value V) (e2'.value V)
  exprEliminateEq : ∀ {e1 e2 e1' e2' : Expr}, exprEliminateEq n e1 e2 = some (e1', e2') →
    ∀ {T : Table} (V : Values T), Reflects V e1 e2 e1' e2'

theorem sameSymbol_value (V : Values T) {e1 e2 : Expr} (h : sameSymbol (e1, e2) = true) :
    e1.value V = e2.value V := by
  cases e1 with
  | symbol s =>
    cases e2 with
    | symbol s' =>
      rw [eq_of_beq h]
    | comp t a b => cases h
    | not e => cases h
    | two t a b => cases h
  | comp t a b => cases h
  | not e => cases h
  | two t a b => cases h

theorem exprEq_step {n : Nat} (ih : EqualSound n) {e1 e2 : Expr}
    (h : exprEq (n + 1) e1 e2 = some true) (V : Values T) : e1.value V = e2.value V := by
  obtain rfl | ⟨a, b, rfl, rfl, hab⟩ | ⟨⟨a, b⟩, hp, hsame⟩ := exprEq_cases h
  · rfl
  · rw [Expr.value, ih.exprEq hab V, Expr.value]
  · have hr := ih.exprEliminateEq hp V
    have hab := sameSymbol_value V hsame
    exact le_antisymm (hr.1 hab.le) (hr.2 hab.ge)

theorem eliminateEq_step {n : Nat} (ih : EqualSound n) {type : TwoType} {e1 e2 e1' e2' : Expr}
    (h : eliminateEq (n + 1) type e1 e2 = some (e1', e2')) (V : Values T) :
    Cancels type.op (e1.value V) (e2.value V) (e1'.value V) (e2'.value V) := by
  obtain ⟨a, b, a', b', e, e', rfl, ha, hb, h⟩ | ⟨a, b, a', b', e, e', rfl, ha, hb, h⟩ | h |
    ⟨heq, h⟩ := eliminateEq_cases h
  · cases h
    exact (ih.eliminateEq ha V).op_left (ih.eliminateEq hb V)
  · cases h
    exact (ih.eliminateEq ha V).op_right (ih.eliminateEq hb V)
  · cases h
    exact Cancels.refl (e := type.unitVal) _ _
  · cases h
    rw [value_unit]
    exact Cancels.of_eq (ih.exprEq heq V)

theorem Reflects.phase {n : Nat} (ih : EqualSound n) {e1 e2 a b : Expr}
    (h : (a, b) = (e1, e2) ∨ ∃ type, Kconfig.eliminateEq n type e1 e2 = some (a, b))
    (V : Values T) : Reflects V e1 e2 a b := by
  obtain h | ⟨type, h⟩ := h
  · cases h
    exact Reflects.refl V _ _
  · exact Reflects.of_cancels (ih.eliminateEq h V)

theorem exprEliminateEq_step {n : Nat} (ih : EqualSound n) {e1 e2 e1' e2' : Expr}
    (h : exprEliminateEq (n + 1) e1 e2 = some (e1', e2')) (V : Values T) :
    Reflects V e1 e2 e1' e2' := by
  obtain ⟨a, b, c, d, h₁, h₂, rfl, rfl⟩ := exprEliminateEq_cases h
  exact ((Reflects.phase ih h₁ V).trans (Reflects.phase ih h₂ V)).eliminateYn

theorem equalSound (n : Nat) : EqualSound n := by
  induction n with
  | zero =>
    refine ⟨?_, ?_, ?_⟩
    · intro e1 e2 h
      cases h
    · intro type e1 e2 e1' e2' h
      cases h
    · intro e1 e2 e1' e2' h
      cases h
  | succ n ih =>
    exact ⟨fun h _ V => exprEq_step ih h V, fun h _ V => eliminateEq_step ih h V,
      fun h _ V => exprEliminateEq_step ih h V⟩

/-- Two expressions that are found equal have the same value, whatever the symbols are. -/
theorem exprEq_value {n : Nat} {e1 e2 : Expr} (h : exprEq n e1 e2 = some true) (V : Values T) :
    e1.value V = e2.value V :=
  (equalSound n).exprEq h V

/-- What `expr_eliminate_eq` leaves of two expressions is ordered as they are. -/
theorem exprEliminateEq_le {n : Nat} {e1 e2 e1' e2' : Expr}
    (h : exprEliminateEq n e1 e2 = some (e1', e2')) (V : Values T) : Reflects V e1 e2 e1' e2' :=
  (equalSound n).exprEliminateEq h V

end

section
variable {T : Table}

theorem exprExtractEq_value {n : Nat} {type : TwoType} {ep ep' : Option Expr}
    {e1 e2 e1' e2' : Expr} (h : exprExtractEq n type ep e1 e2 = some (ep', e1', e2'))
    (V : Values T) :
    Cancels type.op (e1.value V) (e2.value V) (e1'.value V) (e2'.value V) := by
  induction n generalizing ep ep' e1 e2 e1' e2' with
  | zero => cases h
  | succ n ih =>
    obtain ⟨a, b, a', b', e, e', p, p', rfl, ha, hb, h⟩ |
      ⟨a, b, a', b', e, e', p, p', rfl, ha, hb, h⟩ | h | ⟨heq, h⟩ := exprExtractEq_cases h
    · cases h
      exact (ih ha).op_left (ih hb)
    · cases h
      exact (ih ha).op_right (ih hb)
    · cases h
      exact Cancels.refl (e := type.unitVal) _ _
    · cases h
      rw [value_unit]
      exact Cancels.of_eq (exprEq_value heq V)

theorem exprExtractEqTwo_le {n : Nat} {type : TwoType} {tmp : Option Expr} {e1 e2 e1' e2' : Expr}
    (h : exprExtractEqTwo n type e1 e2 = some (tmp, e1', e2')) (V : Values T) :
    Cancels type.op (e1.value V) (e2.value V) (e1'.value V) (e2'.value V) := by
  simp only [exprExtractEqTwo, Option.map_eq_some_iff, Prod.exists] at h
  obtain ⟨p, a, b, hab, h⟩ := h
  have hc := exprExtractEq_value hab V
  split_ifs at h
  · cases h
    rwa [exprEliminateYn_value, exprEliminateYn_value]
  · cases h
    exact hc

end

/-! ## The functions return -/

theorem eliminateEq_size {n : Nat} {type : TwoType} {e1 e2 e1' e2' : Expr}
    (h : eliminateEq n type e1 e2 = some (e1', e2')) :
    e1'.size ≤ e1.size ∧ e2'.size ≤ e2.size := by
  induction n generalizing type e1 e2 e1' e2' with
  | zero => cases h
  | succ n ih =>
    have h₁ := e1.size_pos
    have h₂ := e2.size_pos
    obtain ⟨a, b, a', b', e, e', rfl, ha, hb, h⟩ | ⟨a, b, a', b', e, e', rfl, ha, hb, h⟩ | h |
      ⟨heq, h⟩ := eliminateEq_cases h
    · cases h
      have := ih ha
      have := ih hb
      simp only [Expr.size]
      omega
    · cases h
      have := ih ha
      have := ih hb
      simp only [Expr.size]
      omega
    · cases h
      exact ⟨le_refl _, le_refl _⟩
    · cases h
      exact ⟨h₁, h₂⟩

/-- `__expr_eliminate_eq` returns for expressions of some size at some depth. -/
def EliminateReturns (s d : Nat) : Prop :=
  ∀ (type : TwoType) (e1 e2 : Expr) (n : Nat), e1.size + e2.size ≤ s → d ≤ n →
    ∃ a b, eliminateEq n type e1 e2 = some (a, b)

/-- `expr_eq` returns for expressions of some size at some depth. -/
def EqReturns (s d : Nat) : Prop :=
  ∀ (e1 e2 : Expr) (n : Nat), e1.size + e2.size ≤ s → d ≤ n → ∃ b, exprEq n e1 e2 = some b

theorem eliminateEq_left {n : Nat} {type : TwoType} {a b a' b' e e₁ e₂ : Expr}
    (ha : eliminateEq n type a e = some (a', e₁)) (hb : eliminateEq n type b e₁ = some (b', e₂)) :
    eliminateEq (n + 1) type (.two type a b) e = some (.two type a' b', e₂) := by
  simp [eliminateEq, Expr.split, ha, hb]

theorem eliminateEq_right {n : Nat} {type : TwoType} {a b a' b' e e₁ e₂ : Expr}
    (he : e.split type = none) (ha : eliminateEq n type e a = some (e₁, a'))
    (hb : eliminateEq n type e₁ b = some (e₂, b')) :
    eliminateEq (n + 1) type e (.two type a b) = some (e₂, .two type a' b') := by
  rw [eliminateEq, he]
  simp [Expr.split, ha, hb]

/-- The first step into a connective. -/
theorem eliminateEq_returns_split {s d : Nat} (ih : EliminateReturns s d) {type : TwoType}
    {e1 e2 : Expr} (hs : e1.size + e2.size ≤ s + 1)
    (hsplit : e1.split type ≠ none ∨ e2.split type ≠ none) {n : Nat} (hn : d + 1 ≤ n) :
    ∃ a b, eliminateEq n type e1 e2 = some (a, b) := by
  obtain ⟨m, rfl⟩ : ∃ m, n = m + 1 := ⟨n - 1, by omega⟩
  have h₁ := e1.size_pos
  have h₂ := e2.size_pos
  cases hl : e1.split type with
  | some p =>
    obtain ⟨a, b⟩ := p
    have he := split_eq_some hl
    subst he
    simp only [Expr.size] at hs
    have := a.size_pos
    have := b.size_pos
    obtain ⟨a', e, ha⟩ := ih type _ _ m (show a.size + e2.size ≤ s by omega) (show d ≤ m by omega)
    -- what the first half leaves of the other side is no larger
    have hsize := eliminateEq_size ha
    obtain ⟨b', e', hb⟩ := ih type _ _ m (show b.size + e.size ≤ s by omega) (show d ≤ m by omega)
    exact ⟨_, _, eliminateEq_left ha hb⟩
  | none =>
    cases hr : e2.split type with
    | some p =>
      obtain ⟨a, b⟩ := p
      have he := split_eq_some hr
      subst he
      simp only [Expr.size] at hs
      have := a.size_pos
      have := b.size_pos
      obtain ⟨e, a', ha⟩ := ih type _ _ m (show e1.size + a.size ≤ s by omega) (show d ≤ m by omega)
      have hsize := eliminateEq_size ha
      obtain ⟨e', b', hb⟩ := ih type _ _ m (show e.size + b.size ≤ s by omega) (show d ≤ m by omega)
      exact ⟨_, _, eliminateEq_right hl ha hb⟩
    | none =>
      rw [hl, hr] at hsplit
      simp at hsplit

theorem switchFirst_returns {s d : Nat} (ih : EliminateReturns s d) {e1 e2 : Expr}
    (hs : e1.size + e2.size ≤ s + 1) {n : Nat} (hn : d + 1 ≤ n) :
    ∃ a b, switchFirst (eliminateEq n) e1 e2 = some (a, b) := by
  cases e1 with
  | two type a b => exact eliminateEq_returns_split ih hs (Or.inl (by simp [Expr.split])) hn
  | _ => exact ⟨_, _, rfl⟩

theorem switchSecond_returns {s d : Nat} (ih : EliminateReturns s d) {e1 e2 : Expr}
    (hs : e1.size + e2.size ≤ s + 1) {n : Nat} (hn : d + 1 ≤ n) :
    ∃ a b, switchSecond (eliminateEq n) e1 e2 = some (a, b) := by
  cases e2 with
  | two type a b =>
    rw [switchSecond]
    split_ifs
    · exact eliminateEq_returns_split ih hs (Or.inr (by simp [Expr.split])) hn
    · exact ⟨_, _, rfl⟩
  | _ => exact ⟨_, _, rfl⟩

theorem exprEliminateEq_returns_of {s d : Nat} (ih : EliminateReturns s d) {e1 e2 : Expr}
    (hs : e1.size + e2.size ≤ s + 1) {n : Nat} (hn : d + 2 ≤ n) :
    ∃ a b, exprEliminateEq n e1 e2 = some (a, b) := by
  obtain ⟨m, rfl⟩ : ∃ m, n = m + 1 := ⟨n - 1, by omega⟩
  obtain ⟨a, b, hab⟩ := switchFirst_returns ih hs (show d + 1 ≤ m by omega)
  have hsize : a.size ≤ e1.size ∧ b.size ≤ e2.size := by
    obtain h | ⟨type, h⟩ := switchFirst_cases hab
    · cases h
      exact ⟨le_refl _, le_refl _⟩
    · exact eliminateEq_size h
  obtain ⟨c, f, hcf⟩ := switchSecond_returns ih (show a.size + b.size ≤ s + 1 by omega)
    (show d + 1 ≤ m by omega)
  exact ⟨exprEliminateYn c, exprEliminateYn f, by simp [exprEliminateEq, hab, hcf]⟩

theorem exprEq_returns_of {s d : Nat} (ih : EliminateReturns s d) (ihEq : EqReturns s d) :
    EqReturns (s + 1) (d + 3) := by
  intro e1 e2 n hs hn
  obtain ⟨m, rfl⟩ : ∃ m, n = m + 1 := ⟨n - 1, by omega⟩
  cases e1 with
  | symbol s1 =>
    cases e2 with
    | symbol s2 => exact ⟨_, rfl⟩
    | _ => exact ⟨false, by simp [exprEq]⟩
  | comp type a b =>
    cases e2 with
    | comp type' a' b' => exact ⟨_, rfl⟩
    | _ => exact ⟨false, by simp [exprEq]⟩
  | not a =>
    cases e2 with
    | not b =>
      simp only [Expr.size] at hs
      obtain ⟨r, hr⟩ := ihEq a b m (show a.size + b.size ≤ s by omega) (show d ≤ m by omega)
      exact ⟨r, by rw [exprEq, hr]⟩
    | _ => exact ⟨false, by simp [exprEq]⟩
  | two type a b =>
    cases e2 with
    | two type' a' b' =>
      rw [exprEq]
      split_ifs
      · obtain ⟨c, f, hcf⟩ := exprEliminateEq_returns_of ih hs (show d + 2 ≤ m by omega)
        exact ⟨sameSymbol (c, f), by rw [hcf, Option.map_some]⟩
      · exact ⟨false, rfl⟩
    | _ => exact ⟨false, by simp [exprEq]⟩

theorem eliminateEq_returns_of {s d : Nat} (ih : EliminateReturns s d)
    (ihEq : EqReturns (s + 1) (d + 3)) : EliminateReturns (s + 1) (d + 4) := by
  intro type e1 e2 n hs hn
  by_cases hsplit : e1.split type ≠ none ∨ e2.split type ≠ none
  · exact eliminateEq_returns_split ih hs hsplit (by omega)
  · simp only [ne_eq, not_or, not_not] at hsplit
    obtain ⟨m, rfl⟩ : ∃ m, n = m + 1 := ⟨n - 1, by omega⟩
    obtain ⟨r, hr⟩ := ihEq e1 e2 m hs (by omega)
    simp only [eliminateEq, hsplit.1, hsplit.2, hr, Option.map_some]
    split_ifs
    · exact ⟨_, _, rfl⟩
    · exact ⟨_, _, rfl⟩

/-- Four levels of the recursion for each node are enough. -/
theorem equal_returns (s : Nat) : EliminateReturns s (4 * s) ∧ EqReturns s (4 * s) := by
  induction s with
  | zero =>
    refine ⟨?_, ?_⟩
    · intro type e1 e2 n hs _
      have := e1.size_pos
      omega
    · intro e1 e2 n hs _
      have := e1.size_pos
      omega
  | succ s ih =>
    have hEq := exprEq_returns_of ih.1 ih.2
    refine ⟨eliminateEq_returns_of ih.1 hEq, ?_⟩
    intro e1 e2 n hs hn
    exact hEq e1 e2 n hs (by omega)

theorem exprEq_returns (e1 e2 : Expr) {n : Nat} (hn : 4 * (e1.size + e2.size) ≤ n) :
    ∃ b, exprEq n e1 e2 = some b :=
  (equal_returns _).2 e1 e2 n (le_refl _) hn

theorem exprEliminateEq_returns (e1 e2 : Expr) {n : Nat} (hn : 4 * (e1.size + e2.size) ≤ n) :
    ∃ a b, exprEliminateEq n e1 e2 = some (a, b) := by
  have h₁ := e1.size_pos
  have h₂ := e2.size_pos
  obtain ⟨s, hs⟩ : ∃ s, e1.size + e2.size = s + 1 := ⟨e1.size + e2.size - 1, by omega⟩
  exact exprEliminateEq_returns_of (equal_returns s).1 hs.le (by omega)

/-- `expr_eq` returns, and two expressions it finds equal have one value. -/
theorem exprEq_correct (e1 e2 : Expr) {n : Nat} (hn : 4 * (e1.size + e2.size) ≤ n) :
    ∃ b, exprEq n e1 e2 = some b ∧
      (b = true → ∀ (T : Table) (V : Values T), e1.value V = e2.value V) := by
  obtain ⟨b, hb⟩ := exprEq_returns e1 e2 hn
  refine ⟨b, hb, ?_⟩
  intro htrue T V
  rw [htrue] at hb
  exact exprEq_value hb V

/-- `FOO && BAR` and `BAR && FOO` -/
theorem exprEq_correct_and :
    ∃ b, exprEq 24 (.two .and (.symbol (.config (ascii "FOO"))) (.symbol (.config (ascii "BAR"))))
        (.two .and (.symbol (.config (ascii "BAR"))) (.symbol (.config (ascii "FOO")))) = some b ∧
      (b = true → ∀ (T : Table) (V : Values T),
        Expr.value V
          (.two .and (.symbol (.config (ascii "FOO"))) (.symbol (.config (ascii "BAR")))) =
          Expr.value V (.two .and (.symbol (.config (ascii "BAR")))
            (.symbol (.config (ascii "FOO"))))) :=
  exprEq_correct _ _ (by decide)

/-- `expr_eliminate_eq` returns, and the two expressions are ordered as what is left of them. -/
theorem exprEliminateEq_correct (e1 e2 : Expr) {n : Nat} (hn : 4 * (e1.size + e2.size) ≤ n) :
    ∃ a b, exprEliminateEq n e1 e2 = some (a, b) ∧
      ∀ (T : Table) (V : Values T), (a.value V ≤ b.value V → e1.value V ≤ e2.value V) ∧
        (b.value V ≤ a.value V → e2.value V ≤ e1.value V) := by
  obtain ⟨a, b, hab⟩ := exprEliminateEq_returns e1 e2 hn
  exact ⟨a, b, hab, fun T V => exprEliminateEq_le hab V⟩

/-- `FOO && BAR` and `BAR` -/
theorem exprEliminateEq_correct_and :
    ∃ a b, exprEliminateEq 16 (.two .and (.symbol (.config (ascii "FOO")))
        (.symbol (.config (ascii "BAR")))) (.symbol (.config (ascii "BAR"))) = some (a, b) ∧
      ∀ (T : Table) (V : Values T),
        (a.value V ≤ b.value V → Expr.value V (.two .and (.symbol (.config (ascii "FOO")))
          (.symbol (.config (ascii "BAR")))) ≤ Expr.value V (.symbol (.config (ascii "BAR")))) ∧
        (b.value V ≤ a.value V → Expr.value V (.symbol (.config (ascii "BAR"))) ≤
          Expr.value V (.two .and (.symbol (.config (ascii "FOO")))
            (.symbol (.config (ascii "BAR"))))) :=
  exprEliminateEq_correct _ _ (by decide)

theorem exprExtractEq_size {n : Nat} {type : TwoType} {ep ep' : Option Expr}
    {e1 e2 e1' e2' : Expr} (h : exprExtractEq n type ep e1 e2 = some (ep', e1', e2')) :
    e1'.size ≤ e1.size ∧ e2'.size ≤ e2.size := by
  induction n generalizing ep ep' e1 e2 e1' e2' with
  | zero => cases h
  | succ n ih =>
    have h₁ := e1.size_pos
    have h₂ := e2.size_pos
    obtain ⟨a, b, a', b', e, e', p, p', rfl, ha, hb, h⟩ |
      ⟨a, b, a', b', e, e', p, p', rfl, ha, hb, h⟩ | h | ⟨heq, h⟩ := exprExtractEq_cases h
    · cases h
      have := ih ha
      have := ih hb
      simp only [Expr.size]
      omega
    · cases h
      have := ih ha
      have := ih hb
      simp only [Expr.size]
      omega
    · cases h
      exact ⟨le_refl _, le_refl _⟩
    · cases h
      exact ⟨h₁, h₂⟩

theorem exprExtractEq_returns (type : TwoType) (ep : Option Expr) (e1 e2 : Expr) {n : Nat}
    (hn : 5 * (e1.size + e2.size) ≤ n) :
    ∃ p a b, exprExtractEq n type ep e1 e2 = some (p, a, b) := by
  induction n generalizing ep e1 e2 with
  | zero =>
    have := e1.size_pos
    omega
  | succ n ih =>
    have h₁ := e1.size_pos
    have h₂ := e2.size_pos
    cases hl : e1.split type with
    | some q =>
      obtain ⟨a, b⟩ := q
      have he := split_eq_some hl
      subst he
      simp only [Expr.size] at hn
      have := a.size_pos
      have := b.size_pos
      obtain ⟨p, a', e, ha⟩ := ih ep a e2 (by omega)
      -- what the first half leaves of the other side is no larger
      have hsize := exprExtractEq_size ha
      obtain ⟨p', b', e', hb⟩ := ih p b e (by omega)
      exact ⟨p', .two type a' b', e', by simp [exprExtractEq, Expr.split, ha, hb]⟩
    | none =>
      cases hr : e2.split type with
      | some q =>
        obtain ⟨a, b⟩ := q
        have he := split_eq_some hr
        subst he
        simp only [Expr.size] at hn
        have := a.size_pos
        have := b.size_pos
        obtain ⟨p, e, a', ha⟩ := ih ep e1 a (by omega)
        have hsize := exprExtractEq_size ha
        obtain ⟨p', e', b', hb⟩ := ih p e b (by omega)
        refine ⟨p', e', .two type a' b', ?_⟩
        rw [exprExtractEq, hl]
        simp [Expr.split, ha, hb]
      | none =>
        obtain ⟨eq, heq⟩ := exprEq_returns e1 e2 (n := n) (by omega)
        exact ⟨_, _, _, by rw [exprExtractEq, hl, hr]; simp only [heq, Option.map_some]; rfl⟩

theorem exprExtractEqTwo_returns (type : TwoType) (e1 e2 : Expr) {n : Nat}
    (hn : 5 * (e1.size + e2.size) ≤ n) :
    ∃ p a b, exprExtractEqTwo n type e1 e2 = some (p, a, b) := by
  obtain ⟨p, a, b, h⟩ := exprExtractEq_returns type none e1 e2 hn
  rw [exprExtractEqTwo, h, Option.map_some]
  dsimp only
  split_ifs
  · exact ⟨_, _, _, rfl⟩
  · exact ⟨_, _, _, rfl⟩

end Lichee.Kconfig

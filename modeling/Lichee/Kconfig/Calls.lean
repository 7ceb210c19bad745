import Lichee.Base.Outcome
import Lichee.Kconfig.Meaning

/- What the functions under `sym_calc_value` do with the calls they make. A call leaves the values
   of the symbols that are valid (`Kept`), so what a function has read stays what it is, and the
   function returns what its meaning makes of the values at its end (`Refines`). This is so
   whatever the calls keep (`P`), whichever symbols are in progress (`hidden`), and whatever the
   calls stop with (`E`); of a symbol that may read itself nothing is said (`C` is false). -/
namespace Lichee.Kconfig
open Base

/-! ## The symbols a function calls for -/

def Expr.symbols : Expr → List Symbol
  | .symbol x => [x]
  | .not e => e.symbols
  | .comp _ x y => [x, y]
  | .two _ e1 e2 => e1.symbols ++ e2.symbols

def depSymbols : Option Expr → List Symbol
  | none => []
  | some e => e.symbols

def promptSymbols (ps : List (Option Expr)) : List Symbol := ps.flatMap depSymbols

def rangeSymbols (rs : List Range) : List Symbol :=
  rs.flatMap fun r => r.low :: r.high :: depSymbols r.visible

namespace Symbols
variable (tab : Symbols)

/-- A choice block, as it should be. -/
def IsBlock (x : Symbol) : Prop :=
  tab.isChoice x = true ∧ (tab.type x = .boolean ∨ tab.type x = .tristate)

instance (x : Symbol) : Decidable (tab.IsBlock x) := inferInstanceAs (Decidable (_ ∧ _))

/-- The symbols of the defaults: the value of a choice block does not come from these. -/
def defaultSymbols (x : Symbol) : List Symbol :=
  (tab.entry x).defaults.flatMap fun d =>
    depSymbols d.visible ++ if tab.IsBlock x then [] else d.expr.symbols

/-- The symbols of the dependencies, which the value of a choice block has none of. -/
def dependencySymbols (x : Symbol) : List Symbol :=
  if tab.isChoiceValue x = true then []
  else depSymbols (tab.entry x).dirDep ++ depSymbols (tab.entry x).revDep

/-- The symbols of the prompts of the values of a choice block, other than itself. -/
def valueSymbols (x : Symbol) : List Symbol :=
  (tab.values x).flatMap fun v => (promptSymbols (tab.entry v).prompts).filter (· ≠ x)

/-- Where `modules_val` matters. -/
def moduleSymbols (x : Symbol) : List Symbol :=
  if tab.type x = .tristate ∨ ∃ v ∈ tab.values x, tab.type v = .tristate then [tab.modules] else []

/-- What the value of a symbol depends on, other than itself. -/
def reads (x : Symbol) : List Symbol :=
  promptSymbols (tab.entry x).prompts ++ tab.dependencySymbols x ++ tab.defaultSymbols x ++
    rangeSymbols (tab.entry x).ranges ++ tab.valueSymbols x ++ tab.moduleSymbols x

end Symbols

/-- Choice blocks are booleans or tristates. -/
def Symbols.ChoiceTyped (tab : Symbols) : Prop :=
  ∀ x, tab.isChoice x = true → tab.type x = .boolean ∨ tab.type x = .tristate

/-! ## What is known of a state -/

open Classical in
/-- The values of the symbols that are valid and not in progress. -/
noncomputable def State.view (s : State) (hidden : Set Symbol) (x : Symbol) : Option SymbolValue :=
  if (s.cells x).valid = true ∧ x ∉ hidden then some (s.cells x).curr else none

section
variable {s s' : State} {hidden : Set Symbol} {x : Symbol}

theorem view_some {v : SymbolValue} : s.view hidden x = some v ↔
    (s.cells x).valid = true ∧ x ∉ hidden ∧ (s.cells x).curr = v := by
  unfold State.view
  split
  · next h => simp [h]
  · next h =>
    refine ⟨fun hno => ?_, ?_⟩
    · cases hno
    · intro ⟨hv, hx, _⟩
      exact absurd ⟨hv, hx⟩ h

theorem view_none : s.view hidden x = none ↔ ((s.cells x).valid = true → x ∈ hidden) := by
  unfold State.view
  split
  · next h => simp [h]
  · next h =>
    simp only [not_and, not_not] at h
    exact ⟨fun _ => h, fun _ => rfl⟩

end

/-- What a computation leaves of the symbols other than its `own`: what is valid stays so, with its
value and dependencies; a visibility changes only for a symbol that becomes valid, or with the
choice block it is in; the values of the user stay. -/
structure Kept (tab : Symbols) (own : Set Symbol) (s s' : State) : Prop where
  valid : ∀ x, (s.cells x).valid = true → (s'.cells x).valid = true
  curr : ∀ x, x ∉ own → (s.cells x).valid = true → (s'.cells x).curr = (s.cells x).curr
  deps : ∀ x, x ∉ own → (s.cells x).valid = true →
    (s'.cells x).dirDep = (s.cells x).dirDep ∧ (s'.cells x).revDep = (s.cells x).revDep
  visible : ∀ x, x ∉ own → (s'.cells x).visible = (s.cells x).visible ∨
    ((s.cells x).valid = false ∧ (s'.cells x).valid = true) ∨
    ∃ c, x ∈ tab.values c ∧ (c ∈ own ∨ (s.cells c).valid = false)
  user : ∀ x, (s'.cells x).hasValue = (s.cells x).hasValue ∧ (s'.cells x).user = (s.cells x).user

namespace Kept
variable {tab : Symbols} {own own' : Set Symbol} {s s₁ s₂ s₃ : State}

theorem refl (s : State) : Kept tab own s s :=
  ⟨fun _ => id, fun _ _ _ => rfl, fun _ _ _ => ⟨rfl, rfl⟩, fun _ _ => .inl rfl,
    fun _ => ⟨rfl, rfl⟩⟩

theorem trans (h : Kept tab own s₁ s₂) (h' : Kept tab own s₂ s₃) : Kept tab own s₁ s₃ where
  valid x hx := h'.valid x (h.valid x hx)
  curr x ho hx := (h'.curr x ho (h.valid x hx)).trans (h.curr x ho hx)
  deps x ho hx := by
    obtain ⟨hd, hr⟩ := h.deps x ho hx
    obtain ⟨hd', hr'⟩ := h'.deps x ho (h.valid x hx)
    exact ⟨hd'.trans hd, hr'.trans hr⟩
  visible x ho := by
    rcases h.visible x ho with hv | ⟨hno, hyes⟩ | hc
    · rcases h'.visible x ho with hv' | ⟨hno, hyes⟩ | ⟨c, hxc, hown | hc⟩
      · exact .inl (hv'.trans hv)
      · refine .inr (.inl ⟨?_, hyes⟩)
        by_contra hs
        rw [h.valid x (by simpa using hs)] at hno
        cases hno
      · exact .inr (.inr ⟨c, hxc, .inl hown⟩)
      · refine .inr (.inr ⟨c, hxc, .inr ?_⟩)
        by_contra hs
        rw [h.valid c (by simpa using hs)] at hc
        cases hc
    · exact .inr (.inl ⟨hno, h'.valid x hyes⟩)
    · exact .inr (.inr hc)
  user x := ⟨(h'.user x).1.trans (h.user x).1, (h'.user x).2.trans (h.user x).2⟩

theorem mono (h : Kept tab own s₁ s₂) (hown : own ⊆ own') : Kept tab own' s₁ s₂ where
  valid := h.valid
  curr x ho := h.curr x fun hx => ho (hown hx)
  deps x ho := h.deps x fun hx => ho (hown hx)
  visible x ho := (h.visible x fun hx => ho (hown hx)).imp id fun hv => hv.imp id
    fun ⟨c, hxc, hc⟩ => ⟨c, hxc, hc.imp (fun hm => hown hm) id⟩
  user := h.user

/-- What was known is known. -/
theorem below (h : Kept tab own s₁ s₂) {hidden : Set Symbol} (hown : own ⊆ hidden) :
    Contained (s₁.view hidden) (s₂.view hidden) := by
  intro x v hx
  obtain ⟨hv, hh, hc⟩ := view_some.mp hx
  exact view_some.mpr ⟨h.valid x hv, hh, (h.curr x (fun ho => hh (hown ho)) hv).trans hc⟩

/-- The visibility of a symbol that was valid, and its choice block too if it is in one. -/
theorem visible_of_valid (h : Kept tab ∅ s₁ s₂) {x : Symbol} (hx : (s₁.cells x).valid = true)
    (hc : ∀ c, x ∈ tab.values c → (s₁.cells c).valid = true) :
    (s₂.cells x).visible = (s₁.cells x).visible := by
  rcases h.visible x (Set.notMem_empty x) with hv | ⟨hno, -⟩ | ⟨c, hxc, hown | hno⟩
  · exact hv
  · rw [hx] at hno
    cases hno
  · exact absurd hown (Set.notMem_empty c)
  · rw [hc c hxc] at hno
    cases hno

end Kept

/-! ## Refinement -/

section
variable (tab : Symbols) (call : Symbol → State → Except CalcStop State)
  (E : CalcStop → Prop) (P : State → Prop) (hidden : Set Symbol) (C : Prop)
variable {A B : Type}

/-- From `s` the state `q.2` was reached, and `q.1` is what `m` makes of the values there. -/
def Means (s : State) (m : Known A) (q : A × State) : Prop :=
  P q.2 ∧ Kept tab ∅ s q.2 ∧ (C → m.run (q.2.view hidden) = some q.1)

/-- What `f` returns is what `m` means. -/
def Refines (m : Known A) (f : State → Except CalcStop (A × State)) : Prop :=
  ∀ s, P s → Outcome E (Means tab P hidden C s m) (f s)

/-- Where a text may be missing, nothing is said of texts. -/
def Spells (s : State) (x : Symbol) : Prop :=
  E .badText ∨ tab.isChoice x = true ∨ ∃ t, (s.cells x).curr.val = .text t

/-- A call for `y` may be made. -/
structure Answers (y : Symbol) : Prop where
  seen : C → y ∉ hidden
  call : ∀ s, P s → Outcome E (fun s' => P s' ∧ Kept tab ∅ s s' ∧ (s'.cells y).valid = true ∧
    Spells tab E s' y) (call y s)

variable {tab call E P hidden C}

theorem Means.bind {s s₁ : State} {a : A} {m : Known A} {k : A → Known B} {q : B × State}
    (h : Means tab P hidden C s m (a, s₁)) (h' : Means tab P hidden C s₁ (k a) q) :
    Means tab P hidden C s (m >>= k) q := by
  obtain ⟨hp, hk, hm⟩ := h
  obtain ⟨hp', hk', hm'⟩ := h'
  refine ⟨hp', hk.trans hk', fun hc => ?_⟩
  rw [Ask.run_bind, m.mono _ _ (hk'.below (Set.empty_subset hidden)) a (hm hc)]
  exact hm' hc

/-- One computation after the other, whose meanings follow each other too. -/
theorem outcome_bind_of {s : State} {m : Known A} {k : A → Known B} {R : A → Prop}
    {x : Except CalcStop (A × State)} {f : A × State → Except CalcStop (B × State)}
    (hx : Outcome E (fun q => Means tab P hidden C s m q ∧ R q.1) x)
    (hf : ∀ a s', Means tab P hidden C s m (a, s') → R a →
      Outcome E (Means tab P hidden C s' (k a)) (f (a, s'))) :
    Outcome E (Means tab P hidden C s (m >>= k)) (x >>= f) :=
  hx.bind fun ⟨a, s'⟩ hm => (hf a s' hm.1 hm.2).imp fun _ hq => hm.1.bind hq

theorem outcome_bind {s : State} {m : Known A} {k : A → Known B}
    {x : Except CalcStop (A × State)} {f : A × State → Except CalcStop (B × State)}
    (hx : Outcome E (Means tab P hidden C s m) x)
    (hf : ∀ a s', Means tab P hidden C s m (a, s') →
      Outcome E (Means tab P hidden C s' (k a)) (f (a, s'))) :
    Outcome E (Means tab P hidden C s (m >>= k)) (x >>= f) :=
  outcome_bind_of (R := fun _ => True) (hx.imp fun _ hm => ⟨hm, trivial⟩) fun a s' hm _ =>
    hf a s' hm

theorem outcome_return {s s' : State} {a : A} (hp : P s') (hk : Kept tab ∅ s s') :
    Outcome E (Means tab P hidden C s (pure a)) (.ok (a, s')) :=
  .ok ⟨hp, hk, fun _ => rfl⟩

theorem outcome_pure {s : State} {a : A} (hp : P s) :
    Outcome E (Means tab P hidden C s (pure a)) (.ok (a, s)) :=
  outcome_return hp (.refl s)

/-- A call, and the value that was called for. -/
theorem Answers.key {y : Symbol} (h : Answers tab call E P hidden C y) {s : State} (hs : P s) :
    Outcome E (fun s' => Means tab P hidden C s (Ask.key y) ((s'.cells y).curr, s') ∧
      (s'.cells y).valid = true ∧ Spells tab E s' y) (call y s) := by
  refine (h.call s hs).imp ?_
  rintro s' ⟨hp, hk, hv, ht⟩
  exact ⟨⟨hp, hk, fun hc => view_some.mpr ⟨hv, h.seen hc, rfl⟩⟩, hv, ht⟩

/-- Two ways to say what a result means. -/
theorem Means.congr {s : State} {m m' : Known A} {q : A × State}
    (h : Means tab P hidden C s m q) (heq : C → m' = m) : Means tab P hidden C s m' q :=
  ⟨h.1, h.2.1, fun hC => (heq hC) ▸ h.2.2 hC⟩

theorem Means.refl {s : State} {a : A} (hp : P s) : Means tab P hidden C s (pure a) (a, s) :=
  ⟨hp, .refl s, fun _ => rfl⟩

theorem Spells.kept {s s' : State} {x : Symbol} (h : Spells tab E s x) (hk : Kept tab ∅ s s')
    (hx : (s.cells x).valid = true) : Spells tab E s' x := by
  unfold Spells at h ⊢
  rwa [hk.curr x (Set.notMem_empty x) hx]

/-- A text, where there is one or may be none. -/
theorem read_outcome {v : Val} (h : E .badText ∨ ∃ t, v = .text t) :
    Outcome E (fun t => t = v.bytes) v.read := by
  cases v with
  | text t => exact .ok rfl
  | null =>
    rcases h with hbad | ⟨t, ht⟩
    · exact .error hbad
    · cases ht
  | symbol y =>
    rcases h with hbad | ⟨t, ht⟩
    · exact .error hbad
    · cases ht

/-- A symbol that was called for and is no choice block has a text. -/
theorem Spells.text {s : State} {x : Symbol} (h : Spells tab E s x)
    (hno : E .badText ∨ tab.isChoice x = false) :
    E .badText ∨ ∃ t, (s.cells x).curr.val = .text t := by
  rcases h with hbad | hc | ht
  · exact .inl hbad
  · refine hno.imp id fun hno => ?_
    rw [hc] at hno
    cases hno
  · exact .inr ht

/-- The text of a symbol that was called for. -/
theorem string_outcome (hchoice : E .badText ∨ tab.ChoiceTyped) {s : State} {x : Symbol}
    (h : Spells tab E s x) :
    Outcome E (fun t => t = tab.stringOf x (s.cells x).curr) (tab.symGetStringValue s x) := by
  have hval : tab.type x ≠ .boolean → tab.type x ≠ .tristate →
      Outcome E (fun t => t = (s.cells x).curr.val.bytes) (s.cells x).curr.val.read := by
    intro hb ht
    refine read_outcome (h.text (hchoice.imp id fun hty => ?_))
    by_contra hc
    rcases hty x (by simpa using hc) with h' | h'
    · exact hb h'
    · exact ht h'
  unfold Symbols.symGetStringValue Symbols.stringOf
  cases hty : tab.type x with
  | boolean => exact .ok rfl
  | tristate => exact .ok rfl
  | _ => exact hval (by rw [hty]; intro h'; cases h') (by rw [hty]; intro h'; cases h')

/-! ### Dependencies -/

section
variable (hchoice : E .badText ∨ tab.ChoiceTyped)
include hchoice

theorem calcExpr_refines {e : Expr} (hcall : ∀ y ∈ e.symbols, Answers tab call E P hidden C y) :
    Refines tab E P hidden C (tab.exprMeaning e) (calcExpr tab call e) := by
  induction e with
  | symbol x =>
    intro s hs
    refine ((hcall x (List.mem_singleton_self x)).key hs).bind ?_
    rintro s' ⟨hm, -⟩
    exact .ok (hm.bind (.refl hm.1))
  | not e ih =>
    intro s hs
    refine outcome_bind (ih hcall s hs) fun a s' hm => ?_
    exact outcome_pure hm.1
  | two type e1 e2 ih1 ih2 =>
    intro s hs
    have hcall1 := fun y hy => hcall y (List.mem_append_left e2.symbols hy)
    have hcall2 := fun y hy => hcall y (List.mem_append_right e1.symbols hy)
    refine outcome_bind (ih1 hcall1 s hs) fun a s₁ hm => ?_
    refine outcome_bind (ih2 hcall2 s₁ hm.1) fun b s₂ hm' => ?_
    exact outcome_pure hm'.1
  | comp type x y =>
    intro s hs
    refine ((hcall x List.mem_cons_self).key hs).bind ?_
    rintro s₁ ⟨hx, hvx, htx⟩
    refine ((hcall y (List.mem_cons_of_mem x List.mem_cons_self)).key hx.1).bind ?_
    rintro s₂ ⟨hy, hvy, hty⟩
    have hcurr := hy.2.1.curr x (Set.notMem_empty x) hvx
    refine (string_outcome hchoice (htx.kept hy.2.1 hvx)).bind ?_
    rintro _ rfl
    refine (string_outcome hchoice hty).bind ?_
    rintro _ rfl
    refine .ok ?_
    rw [hcurr]
    exact hx.bind (hy.bind (.refl hy.1))

theorem calcDep_refines {e : Option Expr}
    (hcall : ∀ y ∈ depSymbols e, Answers tab call E P hidden C y) :
    Refines tab E P hidden C (tab.depMeaning e) (calcDep tab call e) := by
  cases e with
  | none => exact fun s hs => outcome_pure hs
  | some e => exact calcExpr_refines hchoice hcall

theorem calcPrompts_refines {ps : List (Option Expr)} (tri : Tristate)
    (hcall : ∀ y ∈ promptSymbols ps, Answers tab call E P hidden C y) :
    Refines tab E P hidden C (tab.promptsMeaning ps tri) (calcPrompts tab call ps tri) := by
  induction ps generalizing tri with
  | nil => exact fun s hs => outcome_pure hs
  | cons p ps ih =>
    intro s hs
    have hcall1 := fun y hy => hcall y (List.mem_flatMap_of_mem List.mem_cons_self hy)
    refine outcome_bind (calcDep_refines hchoice hcall1 s hs) fun v s₁ hm => ?_
    refine ih _ (fun y hy => hcall y ?_) s₁ hm.1
    obtain ⟨q, hq, hy⟩ := List.mem_flatMap.mp hy
    exact List.mem_flatMap_of_mem (List.mem_cons_of_mem p hq) hy

theorem symGetDefaultProp_outcome {ds : List Default}
    (hcall : ∀ d ∈ ds, ∀ y ∈ depSymbols d.visible, Answers tab call E P hidden C y) {s : State}
    (hs : P s) :
    Outcome E (fun q => Means tab P hidden C s (tab.defaultMeaning ds) q ∧
      ∀ dt, q.1 = some dt → dt.1 ∈ ds) (symGetDefaultProp tab call ds s) := by
  induction ds generalizing s with
  | nil => exact .ok ⟨.refl hs, fun _ h => nomatch h⟩
  | cons d ds ih =>
    refine (calcDep_refines hchoice (hcall d List.mem_cons_self) s hs).bind ?_
    rintro ⟨tri, s₁⟩ hm
    dsimp only
    split
    · next h =>
      refine (ih (fun d' hd' => hcall d' (List.mem_cons_of_mem d hd')) hm.1).imp ?_
      rintro q ⟨hq, hmem⟩
      refine ⟨hm.bind ?_, fun dt hdt => List.mem_cons_of_mem d (hmem dt hdt)⟩
      rwa [if_pos h]
    · next h =>
      refine .ok ⟨hm.bind ?_, ?_⟩
      · rw [if_neg h]
        exact .refl hm.1
      · intro dt hdt
        cases hdt
        exact List.mem_cons_self

theorem symGetRangeProp_outcome {rs : List Range}
    (hcall : ∀ r ∈ rs, ∀ y ∈ depSymbols r.visible, Answers tab call E P hidden C y) {s : State}
    (hs : P s) :
    Outcome E (fun q => Means tab P hidden C s (tab.rangeMeaning rs) q ∧
      ∀ r, q.1 = some r → r ∈ rs) (symGetRangeProp tab call rs s) := by
  induction rs generalizing s with
  | nil => exact .ok ⟨.refl hs, fun _ h => nomatch h⟩
  | cons r rs ih =>
    refine (calcDep_refines hchoice (hcall r List.mem_cons_self) s hs).bind ?_
    rintro ⟨tri, s₁⟩ hm
    dsimp only
    split
    · next h =>
      refine (ih (fun r' hr' => hcall r' (List.mem_cons_of_mem r hr')) hm.1).imp ?_
      rintro q ⟨hq, hmem⟩
      refine ⟨hm.bind ?_, fun r' hr' => List.mem_cons_of_mem r (hmem r' hr')⟩
      rwa [if_pos h]
    · next h =>
      refine .ok ⟨hm.bind ?_, ?_⟩
      · rw [if_neg h]
        exact .refl hm.1
      · intro r' hr'
        cases hr'
        exact List.mem_cons_self

end

theorem symGetRangeVal_refines {x : Symbol} (hex : Bool)
    (hcall : Answers tab call E P hidden C x) (hno : E .badText ∨ tab.isChoice x = false) :
    Refines tab E P hidden C (tab.boundMeaning x hex) (symGetRangeVal tab call x hex) := by
  intro s hs
  refine (hcall.key hs).bind ?_
  rintro s' ⟨hm, -, ht⟩
  refine (read_outcome (ht.text hno)).bind ?_
  rintro _ rfl
  exact .ok (hm.bind (.refl hm.1))

/-! ### Values -/

/-- Only the flags `SYMBOL_WRITE` differ. -/
structure Flagged (s s' : State) : Prop where
  cells : ∀ y, ∃ w, s'.cells y = { s.cells y with write := w }
  modules : s'.modulesVal = s.modulesVal

theorem Flagged.kept {s s' : State} (h : Flagged s s') : Kept tab ∅ s s' := by
  refine ⟨fun y => ?_, fun y _ _ => ?_, fun y _ _ => ?_, fun y _ => .inl ?_, fun y => ?_⟩ <;>
    obtain ⟨w, hy⟩ := h.cells y <;> rw [hy]
  · exact id
  · exact ⟨rfl, rfl⟩
  · exact ⟨rfl, rfl⟩

@[simp] theorem set_self (s : State) (x : Symbol) (f : Cell → Cell) :
    (s.set x f).cells x = f (s.cells x) :=
  Function.update_self ..

theorem set_of_ne (s : State) {x y : Symbol} (f : Cell → Cell) (h : y ≠ x) :
    (s.set x f).cells y = s.cells y :=
  Function.update_of_ne h ..

@[simp] theorem set_modulesVal (s : State) (x : Symbol) (f : Cell → Cell) :
    (s.set x f).modulesVal = s.modulesVal := rfl

theorem write_flagged (s : State) (x : Symbol) (w : Bool) :
    Flagged s (s.set x fun c => { c with write := w }) := by
  refine ⟨fun y => ?_, rfl⟩
  by_cases hy : y = x
  · subst hy
    exact ⟨w, set_self ..⟩
  · exact ⟨(s.cells y).write, set_of_ne s _ hy⟩

theorem setWrite_flagged (s : State) (x : Symbol) : Flagged s (s.setWrite x) :=
  write_flagged s x true

/-- What the calls keep does not depend on `SYMBOL_WRITE`. -/
def Unwritten (P : State → Prop) : Prop := ∀ s s', Flagged s s' → P s → P s'

/-- Where `modules_val` is the value of `modules_sym`, which is known. -/
def KnowsModules (tab : Symbols) (P : State → Prop) (hidden : Set Symbol) : Prop :=
  ∀ s, P s → ∃ v, s.view hidden tab.modules = some v ∧ v.tri = s.modulesVal

theorem KnowsModules.stable (h : KnowsModules tab P hidden) {s s' : State} (hs : P s)
    (hs' : P s') (hk : Kept tab ∅ s s') : s'.modulesVal = s.modulesVal := by
  obtain ⟨v, hv, hm⟩ := h s hs
  obtain ⟨v', hv', hm'⟩ := h s' hs'
  rw [hk.below (Set.empty_subset hidden) _ v hv] at hv'
  cases hv'
  exact hm'.symm.trans hm

/-- `modules_val` matters to a tristate only. -/
theorem typeFor_modules {x : Symbol} {visible modulesVal modulesVal' : Tristate}
    (h : tab.type x = .tristate → modulesVal = modulesVal') :
    tab.typeFor visible modulesVal x = tab.typeFor visible modulesVal' x := by
  unfold Symbols.typeFor
  by_cases ht : tab.type x = .tristate
  · rw [h ht]
  · rw [if_neg fun h' => ht h'.1, if_neg fun h' => ht h'.1]

/-- A visibility matters to a value of a choice block only. -/
theorem typeFor_visible {x : Symbol} {visible visible' modulesVal : Tristate}
    (h : tab.isChoiceValue x = false) :
    tab.typeFor visible modulesVal x = tab.typeFor visible' modulesVal x := by
  unfold Symbols.typeFor
  simp only [h, Bool.false_eq_true, false_and]

/-- What follows on a change of the flags. -/
theorem Flagged.outcome {s s' : State} (h : Flagged s s') {m : Known A}
    {x : Except CalcStop (A × State)} (hx : Outcome E (Means tab P hidden C s' m) x) :
    Outcome E (Means tab P hidden C s m) x :=
  hx.imp fun _ ⟨hp, hk, hm⟩ => ⟨hp, h.kept.trans hk, hm⟩

section
variable (hchoice : E .badText ∨ tab.ChoiceTyped) (hwrite : Unwritten P) {x : Symbol}
include hchoice hwrite

theorem defaultTri_refines
    (hcall : ∀ y ∈ tab.defaultSymbols x, Answers tab call E P hidden C y) :
    Refines tab E P hidden C (tab.defaultTriMeaning x) (defaultTri tab call x) := by
  have hvisible : ∀ d ∈ (tab.entry x).defaults, ∀ y ∈ depSymbols d.visible,
      Answers tab call E P hidden C y := fun d hd y hy =>
    hcall y (List.mem_flatMap_of_mem hd (List.mem_append_left _ hy))
  intro s hs
  unfold defaultTri Symbols.defaultTriMeaning
  have hflag : Flagged s (if (s.cells x).revDep = .no then s else s.setWrite x) := by
    split
    · exact ⟨fun y => ⟨_, rfl⟩, rfl⟩
    · exact setWrite_flagged s x
  generalize (if (s.cells x).revDep = .no then s else s.setWrite x) = s₁ at hflag
  refine hflag.outcome ?_
  have hs₁ := hwrite s s₁ hflag hs
  dsimp only
  split
  · exact outcome_pure hs₁
  · next hno =>
    refine outcome_bind_of (R := fun o => ∀ dt, o = some dt → dt.1 ∈ (tab.entry x).defaults)
      (symGetDefaultProp_outcome hchoice hvisible hs₁) fun o s₂ hm hmem => ?_
    cases o with
    | none => exact outcome_pure hm.1
    | some dt =>
      obtain ⟨d, tri⟩ := dt
      have hexpr : ∀ y ∈ d.expr.symbols, Answers tab call E P hidden C y := by
        intro y hy
        refine hcall y (List.mem_flatMap_of_mem (hmem _ rfl) (List.mem_append_right _ ?_))
        rwa [if_neg fun hb => hno hb.1]
      have hflag' := setWrite_flagged s₂ x
      refine hflag'.outcome ?_
      refine outcome_bind (calcExpr_refines hchoice hexpr _ (hwrite _ _ hflag' hm.1))
        fun v s₃ hm' => ?_
      exact outcome_pure hm'.1

/-- The value of a boolean or a tristate before the reverse dependency. -/
theorem ownTri_outcome (hcall : ∀ y ∈ tab.defaultSymbols x, Answers tab call E P hidden C y)
    {s : State} (hs : P s) :
    Outcome E (Means tab P hidden C s
      (tab.ownMeaning (s.cells x).hasValue (s.cells x).user x (s.cells x).visible))
      (ownTri tab call x s) := by
  have hflag := setWrite_flagged s x
  have hdefault := defaultTri_refines hchoice hwrite hcall
  unfold ownTri Symbols.ownMeaning
  by_cases hno : (s.cells x).visible = .no
  · rw [if_pos hno, if_pos (.inl hno)]
    exact hdefault s hs
  · rw [if_neg hno]
    by_cases hhas : (s.cells x).hasValue = true
    · rw [if_pos hhas, if_neg (by simp [hno, hhas])]
      exact hflag.outcome (outcome_pure (hwrite _ _ hflag hs))
    · rw [if_neg hhas, if_pos (.inr (by simpa using hhas))]
      exact hflag.outcome (hdefault _ (hwrite _ _ hflag hs))

theorem defaultText_refines
    (hcall : ∀ y ∈ tab.defaultSymbols x, Answers tab call E P hidden C y)
    (hno : ¬tab.IsBlock x) :
    Refines tab E P hidden C (do
      match ← tab.defaultMeaning (tab.entry x).defaults with
      | some (⟨.symbol ds, _⟩, _) => do
        let v ← Ask.key ds
        return v.val
      | _ => return .text []) (defaultText tab call x) := by
  have hvisible : ∀ d ∈ (tab.entry x).defaults, ∀ y ∈ depSymbols d.visible,
      Answers tab call E P hidden C y := fun d hd y hy =>
    hcall y (List.mem_flatMap_of_mem hd (List.mem_append_left _ hy))
  intro s hs
  unfold defaultText
  refine outcome_bind_of (R := fun o => ∀ dt, o = some dt → dt.1 ∈ (tab.entry x).defaults)
      (symGetDefaultProp_outcome hchoice hvisible hs) fun o s₁ hm hmem => ?_
  cases o with
  | none => exact outcome_pure hm.1
  | some dt =>
    obtain ⟨⟨e, p⟩, tri⟩ := dt
    cases e with
    | symbol ds =>
      have hds : Answers tab call E P hidden C ds := by
        refine hcall ds (List.mem_flatMap_of_mem (hmem _ rfl) (List.mem_append_right _ ?_))
        rw [if_neg hno]
        exact List.mem_singleton_self ds
      have hflag := setWrite_flagged s₁ x
      refine hflag.outcome ?_
      refine (hds.key (hwrite _ _ hflag hm.1)).bind ?_
      rintro s₂ ⟨hm', -⟩
      exact .ok (hm'.bind (.refl hm'.1))
    | _ => exact outcome_pure hm.1

theorem calcText_outcome (hcall : ∀ y ∈ tab.defaultSymbols x, Answers tab call E P hidden C y)
    (hno : ¬tab.IsBlock x) {s : State} (hs : P s) :
    Outcome E (Means tab P hidden C s
      (tab.textMeaning (s.cells x).hasValue (s.cells x).user x (s.cells x).visible))
      (calcText tab call x s) := by
  have hflag := setWrite_flagged s x
  have hdefault := defaultText_refines hchoice hwrite hcall hno
  unfold calcText Symbols.textMeaning
  by_cases hvis : (s.cells x).visible = .no
  · rw [if_pos hvis, if_pos (.inl hvis)]
    exact hdefault s hs
  · rw [if_neg hvis]
    by_cases hhas : (s.cells x).hasValue = true
    · rw [if_pos hhas, if_neg (by simp [hvis, hhas])]
      exact hflag.outcome (outcome_pure (hwrite _ _ hflag hs))
    · rw [if_neg hhas, if_pos (.inr (by simpa using hhas))]
      exact hflag.outcome (hdefault _ (hwrite _ _ hflag hs))

/-- The value of a boolean or a tristate that is no visible value of a choice block. -/
theorem selectedTri_outcome (hcall : ∀ y ∈ tab.defaultSymbols x, Answers tab call E P hidden C y)
    (hmod : C → tab.type x = .tristate → KnowsModules tab P hidden) {s : State} (hs : P s)
    (hx : (s.cells x).valid = true)
    (hblock : C → ∀ c, (tab.entry x).choice = some c → (s.cells c).valid = true ∧ c ∉ hidden) :
    Outcome E (Means tab P hidden C s (tab.selectedMeaning (s.cells x).hasValue (s.cells x).user x
      (s.cells x).visible (s.cells x).revDep s.modulesVal)) (selectedTri tab call x s) := by
  refine outcome_bind (ownTri_outcome hchoice hwrite hcall hs) fun tri s₁ hm => ?_
  refine .ok ⟨hm.1, .refl s₁, fun hC => ?_⟩
  have hdeps := hm.2.1.deps x (Set.notMem_empty x) hx
  have hvis : (s₁.cells x).visible = (s.cells x).visible :=
    hm.2.1.visible_of_valid hx fun c hc => (hblock hC c ((tab.values_iff c x).mp hc)).1
  have hty : tab.symGetType s₁ x = tab.typeFor (s.cells x).visible s.modulesVal x := by
    unfold Symbols.symGetType
    rw [hvis]
    exact typeFor_modules fun ht => (hmod hC ht).stable hs hm.1 hm.2.1
  dsimp only
  rw [hty, hdeps.2]
  rfl

/-- The value of a boolean or a tristate. -/
theorem calcTri_outcome (hcall : ∀ y ∈ tab.defaultSymbols x, Answers tab call E P hidden C y)
    (hmod : C → tab.type x = .tristate → KnowsModules tab P hidden) {s : State} (hs : P s)
    (hx : (s.cells x).valid = true)
    (hblock : C → ∀ c, (tab.entry x).choice = some c → (s.cells c).valid = true ∧ c ∉ hidden) :
    Outcome E (Means tab P hidden C s (tab.triMeaning (s.cells x).hasValue (s.cells x).user x
      (s.cells x).visible (s.cells x).revDep s.modulesVal)) (calcTri tab call x s) := by
  have hselected := selectedTri_outcome hchoice hwrite hcall hmod hs hx hblock
  unfold calcTri Symbols.triMeaning
  cases hc : (tab.entry x).choice with
  | none => exact hselected
  | some c =>
    dsimp only
    split
    · refine .ok ⟨hs, .refl s, fun hC => ?_⟩
      obtain ⟨hv, hh⟩ := hblock hC c hc
      rw [Ask.run_bind, Ask.run_key, view_some.mpr ⟨hv, hh, rfl⟩]
      rfl
    · exact hselected

/-- `newval` of a boolean or a tristate -/
theorem calcNewval_tri (hcall : ∀ y ∈ tab.defaultSymbols x, Answers tab call E P hidden C y)
    (hmod : C → tab.type x = .tristate → KnowsModules tab P hidden)
    (hty : tab.type x = .boolean ∨ tab.type x = .tristate) {s : State} (hs : P s)
    (hx : (s.cells x).valid = true)
    (hblock : C → ∀ c, (tab.entry x).choice = some c → (s.cells c).valid = true ∧ c ∉ hidden) :
    Outcome E (Means tab P hidden C s (do
      let tri ← tab.triMeaning (s.cells x).hasValue (s.cells x).user x (s.cells x).visible
        (s.cells x).revDep s.modulesVal
      return ⟨(emptyValue (tab.type x)).val, tri⟩)) (calcNewval tab call x s) := by
  have htri := calcTri_outcome hchoice hwrite hcall hmod hs hx hblock
  have hfor : tab.symGetType s x = .boolean ∨ tab.symGetType s x = .tristate := by
    unfold Symbols.symGetType Symbols.typeFor
    split
    · exact .inl rfl
    · exact hty
  unfold calcNewval
  rcases hfor with h | h <;> rw [h] <;>
    exact outcome_bind htri fun tri s₁ hm => outcome_pure hm.1

end

/-! ### Visibilities -/

/-- A change of a symbol that leaves its flags but `SYMBOL_WRITE`, what the user has set, and the
dependencies of a value of a choice block. -/
structure OwnChange (tab : Symbols) (x : Symbol) (f : Cell → Cell) : Prop where
  valid : ∀ c, (f c).valid = c.valid
  hasValue : ∀ c, (f c).hasValue = c.hasValue
  user : ∀ c, (f c).user = c.user
  deps : tab.isChoiceValue x = true → ∀ c, (f c).dirDep = c.dirDep ∧ (f c).revDep = c.revDep

/-- What the calls keep does not depend on what `x` is in the meantime. -/
def Unowned (tab : Symbols) (P : State → Prop) (x : Symbol) : Prop :=
  ∀ s f, OwnChange tab x f → P s → P (s.set x f)

theorem set_valid {s : State} {x : Symbol} {f : Cell → Cell}
    (hf : ∀ c, (f c).valid = c.valid) (y : Symbol) :
    ((s.set x f).cells y).valid = (s.cells y).valid := by
  by_cases hy : y = x
  · subst hy
    rw [set_self, hf]
  · rw [set_of_ne s f hy]

theorem OwnChange.kept {x : Symbol} {f : Cell → Cell} (hf : OwnChange tab x f) (s : State) :
    Kept tab {x} s (s.set x f) where
  valid y hy := (set_valid hf.valid y).trans hy
  curr y ho _ := by rw [set_of_ne s f ho]
  deps y ho _ := by
    rw [set_of_ne s f ho]
    exact ⟨rfl, rfl⟩
  visible y ho := .inl (by rw [set_of_ne s f ho])
  user y := by
    by_cases hy : y = x
    · subst hy
      rw [set_self]
      exact ⟨hf.hasValue _, hf.user _⟩
    · rw [set_of_ne s f hy]
      exact ⟨rfl, rfl⟩

/-- A symbol that is not known may change. -/
theorem set_view {s : State} {x : Symbol} {f : Cell → Cell} (hf : ∀ c, (f c).valid = c.valid)
    (hx : s.view hidden x = none) : (s.set x f).view hidden = s.view hidden := by
  funext y
  by_cases hy : y = x
  · subst hy
    rw [hx, view_none, set_valid hf]
    exact view_none.mp hx
  · unfold State.view
    rw [set_of_ne s f hy]

/-- Where the value of `modules_sym` is known, a visibility follows from the prompts. -/
theorem visibleMeaning_run {x : Symbol} (hmod : tab.type x = .tristate → KnowsModules tab P hidden)
    {s : State} (hs : P s) {tri : Tristate}
    (htri : (tab.promptsMeaning (tab.entry x).prompts .no).run (s.view hidden) = some tri) :
    (tab.visibleMeaning x).run (s.view hidden) = some (tab.promptTri s.modulesVal x tri) := by
  unfold Symbols.visibleMeaning Symbols.modulesMeaning
  by_cases ht : tab.type x = .tristate
  · obtain ⟨v, hv, hm⟩ := hmod ht s hs
    rw [if_pos ht]
    simp only [Ask.run_bind, Ask.run_key, hv, htri, Option.bind_some, Ask.run_pure, hm]
  · rw [if_neg ht]
    simp only [Ask.run_bind, htri, Option.bind_some, Ask.run_pure]
    unfold Symbols.promptTri
    rw [if_pos (.inl ht), if_pos (.inl ht)]

/-- Where the value of `modules_sym` is known, a reverse dependency follows from its expression. -/
theorem revMeaning_run {x : Symbol} (hmod : tab.type x = .tristate → KnowsModules tab P hidden)
    {s : State} (hs : P s) {tri : Tristate}
    (htri : (tab.revDepMeaning (tab.entry x).revDep).run (s.view hidden) = some tri) :
    (tab.revMeaning x).run (s.view hidden) =
      some (if tab.typeFor .no s.modulesVal x = .boolean then modYes tri else tri) := by
  unfold Symbols.revMeaning Symbols.modulesMeaning
  by_cases ht : tab.type x = .tristate
  · obtain ⟨v, hv, hm⟩ := hmod ht s hs
    rw [if_pos ht]
    simp only [Ask.run_bind, Ask.run_key, hv, htri, Option.bind_some, Ask.run_pure, hm]
  · rw [if_neg ht]
    simp only [Ask.run_bind, htri, Option.bind_some, Ask.run_pure]
    have hty : tab.typeFor .no .no x = tab.typeFor .no s.modulesVal x :=
      typeFor_modules fun h => absurd h ht
    rw [hty]

/-- The visibility and the dependencies of a symbol are what they mean. -/
structure Located (tab : Symbols) (hidden : Set Symbol) (s : State) (x : Symbol) : Prop where
  visible : (tab.visibleMeaning x).run (s.view hidden) = some (s.cells x).visible
  dirDep : tab.isChoiceValue x = false →
    (tab.dirMeaning x).run (s.view hidden) = some (s.cells x).dirDep
  revDep : tab.isChoiceValue x = false →
    (tab.revMeaning x).run (s.view hidden) = some (s.cells x).revDep

section
variable (hchoice : E .badText ∨ tab.ChoiceTyped) {x : Symbol}
include hchoice

theorem calcRevDep_refines {e : Option Expr}
    (hcall : ∀ y ∈ depSymbols e, Answers tab call E P hidden C y) :
    Refines tab E P hidden C (tab.revDepMeaning e) (calcRevDep tab call e) := by
  cases e with
  | none => exact fun s hs => outcome_pure hs
  | some e => exact calcExpr_refines hchoice hcall

/-- What `sym_calc_visibility` leaves: the visibility and the dependencies of `x` are known, and a
value that `x` had when it was called remains. -/
structure Visited (tab : Symbols) (P : State → Prop) (hidden : Set Symbol) (C : Prop) (x : Symbol)
    (s s' : State) : Prop where
  keeps : P s'
  kept : Kept tab {x} s s'
  curr : (s.cells x).valid = true → (s'.cells x).curr = (s.cells x).curr
  located : C → Located tab hidden s' x

/-- The dependencies of a symbol that is no value of a choice block. -/
theorem calcDependencies_outcome
    (hcall : ∀ y ∈ tab.dependencySymbols x, Answers tab call E P hidden C y)
    (hmod : C → tab.type x = .tristate → KnowsModules tab P hidden) (hown : Unowned tab P x)
    (hnone : C → ∀ s, P s → s.view hidden x = none) (hno : tab.isChoiceValue x = false)
    {s : State} (hs : P s) (hx : (s.cells x).valid = true)
    (hvis : C → (tab.visibleMeaning x).run (s.view hidden) = some (s.cells x).visible) :
    Outcome E (Visited tab P hidden C x s) (calcDependencies tab call x s) := by
  have hsymbols : tab.dependencySymbols x =
      depSymbols (tab.entry x).dirDep ++ depSymbols (tab.entry x).revDep := by
    rw [Symbols.dependencySymbols, hno]
    rfl
  have hdir := fun y hy => hcall y (hsymbols ▸ List.mem_append_left _ hy)
  have hsel := fun y hy => hcall y (hsymbols ▸ List.mem_append_right _ hy)
  have hblocks : ∀ s' : State, ∀ c, x ∈ tab.values c → (s'.cells c).valid = true := by
    intro s' c hc
    rw [Symbols.isChoiceValue, (tab.values_iff c x).mp hc] at hno
    cases hno
  unfold calcDependencies
  -- first the direct dependency is calculated and stored, then the reverse one
  refine (calcDep_refines hchoice hdir s hs).bind ?_
  rintro ⟨tri, s₁⟩ ⟨hp₁, hk₁, hm₁⟩
  have hx₁ := hk₁.valid x hx
  have hf₁ : OwnChange tab x fun c => { c with dirDep := modYes tri } :=
    ⟨fun _ => rfl, fun _ => rfl, fun _ => rfl, fun h => by rw [hno] at h; cases h⟩
  have hx₂ : ((s₁.set x fun c => { c with dirDep := modYes tri }).cells x).valid = true := by
    rw [set_self]
    exact hx₁
  refine (calcRevDep_refines hchoice hsel _ (hown _ _ hf₁ hp₁)).bind ?_
  rintro ⟨tri', s₃⟩ ⟨hp₃, hk₃, hm₃⟩
  dsimp only at hp₁ hk₁ hm₁ hp₃ hk₃ hm₃ ⊢
  have hx₃ := hk₃.valid x hx₂
  generalize hrev : (if tab.symGetType s₃ x = SymbolType.boolean then modYes tri' else tri') = rev
  have hf₃ : OwnChange tab x fun c => { c with revDep := rev } :=
    ⟨fun _ => rfl, fun _ => rfl, fun _ => rfl, fun h => by rw [hno] at h; cases h⟩
  have hcurr : (s₃.cells x).curr = (s₁.cells x).curr := by
    rw [hk₃.curr x (Set.notMem_empty x) hx₂, set_self]
  refine .ok ⟨hown _ _ hf₃ hp₃, ?_, fun _ => ?_, fun hC => ?_⟩
  · refine (hk₁.mono (Set.empty_subset _)).trans ?_
    exact (hf₁.kept s₁).trans ((hk₃.mono (Set.empty_subset _)).trans (hf₃.kept s₃))
  · rw [set_self]
    exact hcurr.trans (hk₁.curr x (Set.notMem_empty x) hx)
  · have hview₃ := set_view hf₃.valid (hnone hC s₃ hp₃)
    -- what was known after each calculation is still known at the end
    have hbelow : Contained (s₁.view hidden) (s₃.view hidden) := by
      rw [← set_view hf₁.valid (hnone hC s₁ hp₁)]
      exact hk₃.below (Set.empty_subset hidden)
    have hbelow₀ : Contained (s.view hidden) (s₃.view hidden) :=
      (hk₁.below (Set.empty_subset hidden)).trans hbelow
    refine ⟨?_, fun _ => ?_, fun _ => ?_⟩ <;> rw [hview₃, set_self]
    · have hvis₁ := hk₁.visible_of_valid hx (hblocks s)
      have hvis₃ := hk₃.visible_of_valid hx₂ (hblocks _)
      rw [set_self] at hvis₃
      refine (tab.visibleMeaning x).mono _ _ hbelow₀ _ ?_
      rw [hvis hC, hvis₃, hvis₁]
    · have hdir₃ := (hk₃.deps x (Set.notMem_empty x) hx₂).1
      rw [set_self] at hdir₃
      refine (tab.dirMeaning x).mono _ _ hbelow _ ?_
      rw [hdir₃, Symbols.dirMeaning, Ask.run_bind, hm₁ hC]
      rfl
    · rw [revMeaning_run (hmod hC) hp₃ (hm₃ hC), ← hrev, Symbols.symGetType,
        typeFor_visible hno]

theorem symCalcVisibility_outcome
    (hprompts : ∀ y ∈ promptSymbols (tab.entry x).prompts, Answers tab call E P hidden C y)
    (hcall : ∀ y ∈ tab.dependencySymbols x, Answers tab call E P hidden C y)
    (hmod : C → tab.type x = .tristate → KnowsModules tab P hidden) (hown : Unowned tab P x)
    (hnone : C → ∀ s, P s → s.view hidden x = none) {s : State} (hs : P s)
    (hx : tab.isChoiceValue x = false → (s.cells x).valid = true) :
    Outcome E (Visited tab P hidden C x s) (symCalcVisibility tab call x s) := by
  unfold symCalcVisibility
  refine (calcPrompts_refines hchoice .no hprompts s hs).bind ?_
  rintro ⟨tri, s₁⟩ ⟨hp₁, hk₁, hm₁⟩
  dsimp only at hp₁ hk₁ hm₁ ⊢
  generalize hvis : tab.promptTri s₁.modulesVal x tri = vis
  have hf : OwnChange tab x fun c => { c with visible := vis } :=
    ⟨fun _ => rfl, fun _ => rfl, fun _ => rfl, fun _ _ => ⟨rfl, rfl⟩⟩
  have hp₂ := hown _ _ hf hp₁
  have hk₂ := (hk₁.mono (Set.empty_subset {x})).trans (hf.kept s₁)
  have hcurr : (s.cells x).valid = true →
      ((s₁.set x fun c => { c with visible := vis }).cells x).curr = (s.cells x).curr := by
    intro hv
    rw [set_self]
    exact hk₁.curr x (Set.notMem_empty x) hv
  -- `x` is hidden, so its own visibility changes nothing of what is known
  have hknown : C → (tab.visibleMeaning x).run
      ((s₁.set x fun c => { c with visible := vis }).view hidden) = some vis := by
    intro hC
    rw [set_view hf.valid (hnone hC s₁ hp₁), ← hvis]
    exact visibleMeaning_run (hmod hC) hp₁ (hm₁ hC)
  split
  · next hvalue =>
    refine .ok ⟨hp₂, hk₂, hcurr, fun hC => ⟨?_, fun h => ?_, fun h => ?_⟩⟩
    · rw [set_self]
      exact hknown hC
    · rw [hvalue] at h
      cases h
    · rw [hvalue] at h
      cases h
  · next hvalue =>
    have hno : tab.isChoiceValue x = false := by simpa using hvalue
    have hv₂ : ((s₁.set x fun c => { c with visible := vis }).cells x).valid = true := by
      rw [set_self]
      exact hk₁.valid x (hx hno)
    refine (calcDependencies_outcome hchoice hcall hmod hown hnone hno hp₂ hv₂ ?_).imp ?_
    · rw [set_self]
      exact hknown
    · intro s' hvisited
      exact ⟨hvisited.keeps, hk₂.trans hvisited.kept,
        fun hv => (hvisited.curr hv₂).trans (hcurr hv), hvisited.located⟩

end

/-! ### Ranges -/

/-- A change of the value only. -/
def ValueChange (f : Cell → Cell) : Prop := ∀ c, ∃ v, f c = { c with curr := v }

theorem ValueChange.valid {f : Cell → Cell} (hf : ValueChange f) (c : Cell) :
    (f c).valid = c.valid := by
  obtain ⟨v, hv⟩ := hf c
  rw [hv]

theorem ValueChange.own {f : Cell → Cell} (hf : ValueChange f) (x : Symbol) :
    OwnChange tab x f := by
  refine ⟨fun c => ?_, fun c => ?_, fun c => ?_, fun _ c => ?_⟩ <;> obtain ⟨v, hv⟩ := hf c <;>
    rw [hv]
  exact ⟨rfl, rfl⟩

/-- What the calculation of `x` leaves of it, once its visibility is known: only the value changes,
unless the choice block that it is in is calculated. -/
structure Later (tab : Symbols) (P : State → Prop) (x : Symbol) (s s' : State) : Prop where
  keeps : P s'
  kept : Kept tab {x} s s'
  visible : (∀ c, x ∈ tab.values c → (s.cells c).valid = true) →
    (s'.cells x).visible = (s.cells x).visible
  deps : (s'.cells x).dirDep = (s.cells x).dirDep ∧ (s'.cells x).revDep = (s.cells x).revDep

namespace Later
variable {x : Symbol} {s s₁ s₂ s₃ : State}

theorem refl (hs : P s) : Later tab P x s s :=
  ⟨hs, .refl s, fun _ => rfl, rfl, rfl⟩

theorem trans (h : Later tab P x s₁ s₂) (h' : Later tab P x s₂ s₃) : Later tab P x s₁ s₃ where
  keeps := h'.keeps
  kept := h.kept.trans h'.kept
  visible hc := (h'.visible fun c hxc => h.kept.valid c (hc c hxc)).trans (h.visible hc)
  deps := ⟨h'.deps.1.trans h.deps.1, h'.deps.2.trans h.deps.2⟩

theorem of_kept (hk : Kept tab ∅ s₁ s₂) (hp : P s₂) (hx : (s₁.cells x).valid = true) :
    Later tab P x s₁ s₂ :=
  ⟨hp, hk.mono (Set.empty_subset _), hk.visible_of_valid hx, hk.deps x (Set.notMem_empty x) hx⟩

theorem set {f : Cell → Cell} (hf : ValueChange f) (hown : Unowned tab P x) (hs : P s) :
    Later tab P x s (s.set x f) := by
  obtain ⟨v, hv⟩ := hf (s.cells x)
  refine ⟨hown s f (hf.own x) hs, (hf.own x).kept s, fun _ => ?_, ?_⟩ <;> rw [set_self, hv]
  exact ⟨rfl, rfl⟩

/-- What is known of `x` remains known. -/
theorem located (h : Later tab P x s₁ s₂) (hx : x ∈ hidden) (hl : Located tab hidden s₁ x)
    (hc : ∀ c, x ∈ tab.values c → (s₁.cells c).valid = true) : Located tab hidden s₂ x := by
  have hbelow : Contained (s₁.view hidden) (s₂.view hidden) :=
    h.kept.below (Set.singleton_subset_iff.mpr hx)
  refine ⟨?_, fun hno => ?_, fun hno => ?_⟩
  · rw [h.visible hc]
    exact (tab.visibleMeaning x).mono _ _ hbelow _ hl.visible
  · rw [h.deps.1]
    exact (tab.dirMeaning x).mono _ _ hbelow _ (hl.dirDep hno)
  · rw [h.deps.2]
    exact (tab.revMeaning x).mono _ _ hbelow _ (hl.revDep hno)

end Later

/-- What `sym_validate_range` leaves: the text of `x` is the one in range. -/
structure Ranged (tab : Symbols) (P : State → Prop) (hidden : Set Symbol) (C : Prop) (x : Symbol)
    (m : Known Val) (s s' : State) : Prop where
  later : Later tab P x s s'
  tri : (s'.cells x).curr.tri = (s.cells x).curr.tri
  val : C → m.run (s'.view hidden) = some (s'.cells x).curr.val

/-- A bound takes the place of the number. -/
theorem ranged_set {x : Symbol} {m : Known Val} {s₁ s₂ : State} {t : List UInt8}
    (hown : Unowned tab P x) (hx : C → x ∈ hidden) (hv : (s₁.cells x).valid = true)
    (hm : Means tab P hidden C s₁ m (.text t, s₂)) :
    Ranged tab P hidden C x m s₁
      (s₂.set x fun c => { c with curr := { c.curr with val := .text t } }) := by
  have hf : ValueChange fun c => { c with curr := { c.curr with val := .text t } } :=
    fun c => ⟨_, rfl⟩
  refine ⟨(Later.of_kept hm.2.1 hm.1 hv).trans (.set hf hown hm.1), ?_, fun hC => ?_⟩
  · rw [set_self, hm.2.1.curr x (Set.notMem_empty x) hv]
  · rw [set_self, set_view hf.valid (view_none.mpr fun _ => hx hC)]
    exact hm.2.2 hC

/-- The number stays. -/
theorem ranged_same {x : Symbol} {m : Known Val} {s₁ s₂ : State} (hv : (s₁.cells x).valid = true)
    (hm : Means tab P hidden C s₁ m ((s₁.cells x).curr.val, s₂)) :
    Ranged tab P hidden C x m s₁ s₂ := by
  have hcurr := hm.2.1.curr x (Set.notMem_empty x) hv
  refine ⟨.of_kept hm.2.1 hm.1 hv, ?_, fun hC => ?_⟩
  · rw [hcurr]
  · rw [hcurr]
    exact hm.2.2 hC

section
variable (hchoice : E .badText ∨ tab.ChoiceTyped) {x : Symbol}
include hchoice

theorem validateRange_outcome (hex : Bool)
    (hcall : ∀ y ∈ rangeSymbols (tab.entry x).ranges, Answers tab call E P hidden C y)
    (hbounds : E .badText ∨ ∀ r ∈ (tab.entry x).ranges,
      tab.isChoice r.low = false ∧ tab.isChoice r.high = false)
    (hown : Unowned tab P x) (hx : C → x ∈ hidden) {s : State} (hs : P s)
    (hv : (s.cells x).valid = true)
    (htext : E .badText ∨ ∃ t, (s.cells x).curr.val = .text t) :
    Outcome E (Ranged tab P hidden C x (tab.withinMeaning x hex (s.cells x).curr.val) s)
      (validateRange tab call x hex s) := by
  have hvisible : ∀ r ∈ (tab.entry x).ranges, ∀ y ∈ depSymbols r.visible,
      Answers tab call E P hidden C y := fun r hr y hy =>
    hcall y (List.mem_flatMap_of_mem hr (List.mem_cons_of_mem _ (List.mem_cons_of_mem _ hy)))
  unfold validateRange
  refine (symGetRangeProp_outcome hchoice hvisible hs).bind ?_
  rintro ⟨o, s₁⟩ ⟨hm₁, hmem⟩
  cases o with
  | none => exact .ok (ranged_same hv (hm₁.bind (.refl hm₁.1)))
  | some r =>
    have hr := hmem r rfl
    have hlow := hcall r.low (List.mem_flatMap_of_mem hr List.mem_cons_self)
    have hhigh := hcall r.high
      (List.mem_flatMap_of_mem hr (List.mem_cons_of_mem _ List.mem_cons_self))
    have hcurr := hm₁.2.1.curr x (Set.notMem_empty x) hv
    dsimp only
    rw [hcurr]
    refine (read_outcome htext).bind ?_
    rintro _ rfl
    refine (symGetRangeVal_refines hex hlow (hbounds.imp id fun h => (h r hr).1) s₁ hm₁.1).bind ?_
    rintro ⟨low, s₂⟩ hm₂
    dsimp only
    -- below the range, in it, or above it
    split
    · next hless =>
      refine .ok (ranged_set hown hx hv (hm₁.bind (hm₂.bind ?_)))
      rw [if_pos hless]
      exact .refl hm₂.1
    · next hless =>
      refine (symGetRangeVal_refines hex hhigh (hbounds.imp id fun h => (h r hr).2) s₂
        hm₂.1).bind ?_
      rintro ⟨high, s₃⟩ hm₃
      dsimp only
      split
      · next hle =>
        refine .ok (ranged_same hv (hm₁.bind (hm₂.bind ?_)))
        rw [if_neg hless]
        refine hm₃.bind ?_
        rw [if_pos hle]
        exact .refl hm₃.1
      · next hle =>
        refine .ok (ranged_set hown hx hv (hm₁.bind (hm₂.bind ?_)))
        rw [if_neg hless]
        refine hm₃.bind ?_
        rw [if_neg hle]
        exact .refl hm₃.1

/-- A number is brought into its range, and any other text stays. -/
theorem symValidateRange_outcome
    (hcall : ∀ y ∈ rangeSymbols (tab.entry x).ranges, Answers tab call E P hidden C y)
    (hbounds : E .badText ∨ ∀ r ∈ (tab.entry x).ranges,
      tab.isChoice r.low = false ∧ tab.isChoice r.high = false)
    (hown : Unowned tab P x) (hx : C → x ∈ hidden) {s : State} (hs : P s)
    (hv : (s.cells x).valid = true)
    (htext : tab.type x = .int ∨ tab.type x = .hex →
      E .badText ∨ ∃ t, (s.cells x).curr.val = .text t) :
    Outcome E (Ranged tab P hidden C x (tab.rangedMeaning x (s.cells x).curr.val) s)
      (symValidateRange tab call x s) := by
  unfold symValidateRange Symbols.rangedMeaning
  cases hty : tab.type x with
  | int => exact validateRange_outcome hchoice false hcall hbounds hown hx hs hv (htext (.inl hty))
  | hex => exact validateRange_outcome hchoice true hcall hbounds hown hx hs hv (htext (.inr hty))
  | _ => exact .ok (ranged_same hv (.refl hs))

end

end

end Lichee.Kconfig

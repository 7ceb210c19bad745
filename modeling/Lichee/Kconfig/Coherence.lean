import Lichee.Kconfig.Calculation

/- The values that are valid fit each other. Where the dependencies of the symbols are in an order
   (`Ordered`), a call of `sym_calc_value` keeps every value that is valid what the others make of
   it (`Steady`); while symbols are in progress this is said of the others. -/
namespace Lichee.Kconfig
open Base

/-! ## Tables without a circle -/

/-- The dependencies go down in `rank`. The choice blocks and their values are booleans or
tristates, and a prompt of each value is under its block: `menu_finalize` puts them there, and warns
of a value without a prompt. That the defaults of a block name its values is checked nowhere. -/
structure Ordered (tab : Symbols) (rank : Symbol → Nat) : Prop where
  lower : ∀ x, ∀ y ∈ tab.reads x, rank y < rank x
  typed : tab.ChoiceTyped
  named : ∀ c, tab.isChoice c = true → DefaultsNamed tab c
  under : ∀ c, ∀ v ∈ tab.values c, c ∈ promptSymbols (tab.entry v).prompts ∧
    (tab.type v = .boolean ∨ tab.type v = .tristate)

namespace Ordered
variable {tab : Symbols} {rank : Symbol → Nat} (h : Ordered tab rank)
include h

/-- A value of a choice block comes after its block. -/
theorem value {c v : Symbol} (hv : v ∈ tab.values c) : rank c < rank v :=
  h.lower v c (mem_reads_prompts (h.under c v hv).1)

/-- What is calculated with `modules_val` comes after `modules_sym`. -/
theorem modules {x : Symbol}
    (hx : tab.type x = .tristate ∨ ∃ v ∈ tab.values x, tab.type v = .tristate) :
    rank tab.modules < rank x :=
  h.lower x tab.modules (mem_reads_modules hx)

end Ordered

/-! ## What an answer was asked of -/

section
variable {tab : Symbols} {r : Symbol → Option SymbolValue}

theorem exprMeaning_asks {e : Expr} {tri : Tristate} (h : (tab.exprMeaning e).run r = some tri)
    {y : Symbol} (hy : y ∈ e.symbols) : ∃ v, r y = some v := by
  induction e generalizing tri with
  | symbol x =>
    obtain ⟨v, hv, -⟩ := Option.bind_eq_some_iff.mp h
    cases List.mem_singleton.mp hy
    exact ⟨v, hv⟩
  | not e ih =>
    obtain ⟨val, hval, -⟩ := Option.bind_eq_some_iff.mp h
    exact ih hval hy
  | two type e1 e2 ih1 ih2 =>
    obtain ⟨val1, hval1, hrest⟩ := Option.bind_eq_some_iff.mp h
    obtain ⟨val2, hval2, -⟩ := Option.bind_eq_some_iff.mp hrest
    rcases List.mem_append.mp hy with hy | hy
    · exact ih1 hval1 hy
    · exact ih2 hval2 hy
  | comp type x z =>
    obtain ⟨v, hv, hrest⟩ := Option.bind_eq_some_iff.mp h
    obtain ⟨w, hw, -⟩ := Option.bind_eq_some_iff.mp hrest
    rcases List.mem_cons.mp hy with rfl | hy
    · exact ⟨v, hv⟩
    · cases List.mem_singleton.mp hy
      exact ⟨w, hw⟩

theorem depMeaning_asks {e : Option Expr} {tri : Tristate}
    (h : (tab.depMeaning e).run r = some tri) {y : Symbol} (hy : y ∈ depSymbols e) :
    ∃ v, r y = some v := by
  cases e with
  | none => cases hy
  | some e => exact exprMeaning_asks h hy

theorem promptsMeaning_asks {ps : List (Option Expr)} {tri tri' : Tristate}
    (h : (tab.promptsMeaning ps tri).run r = some tri') {y : Symbol} (hy : y ∈ promptSymbols ps) :
    ∃ v, r y = some v := by
  induction ps generalizing tri with
  | nil => cases hy
  | cons p ps ih =>
    obtain ⟨v, hv, hrest⟩ := Option.bind_eq_some_iff.mp h
    rcases List.mem_append.mp hy with hy | hy
    · exact depMeaning_asks hv hy
    · exact ih hrest hy

theorem visibleMeaning_asks {x : Symbol} {tri : Tristate}
    (h : (tab.visibleMeaning x).run r = some tri) {y : Symbol}
    (hy : y ∈ promptSymbols (tab.entry x).prompts) : ∃ v, r y = some v := by
  obtain ⟨modulesVal, -, hrest⟩ := Option.bind_eq_some_iff.mp h
  obtain ⟨tri', htri, -⟩ := Option.bind_eq_some_iff.mp hrest
  exact promptsMeaning_asks htri hy

/-- The value of a boolean or a tristate. -/
theorem valueMeaning_tri {x : Symbol} (hty : tab.type x = .boolean ∨ tab.type x = .tristate)
    (has : Bool) (user : SymbolValue) :
    tab.valueMeaning has user x = tab.triValueMeaning has user x := by
  unfold Symbols.valueMeaning
  rcases hty with ht | ht <;> rw [ht]

/-- The value of a symbol that is no choice block is the one before the choice. -/
theorem chosenMeaning_plain {x : Symbol} (hblock : tab.isChoice x = false)
    (user newval : SymbolValue) : tab.chosenMeaning user x newval = pure newval := by
  unfold Symbols.chosenMeaning
  rw [hblock]
  exact if_neg fun h => Bool.false_ne_true h.1

/-- The reverse dependency of a symbol that is no value of a choice block. -/
theorem selectMeaning_plain {x : Symbol} (hno : tab.isChoiceValue x = false) :
    tab.selectMeaning x = tab.revMeaning x := by
  unfold Symbols.selectMeaning
  rw [hno]
  exact if_neg Bool.false_ne_true

theorem valueMeaning_asks {has : Bool} {user v : SymbolValue} {x : Symbol}
    (hty : tab.type x = .boolean ∨ tab.type x = .tristate)
    (h : (tab.valueMeaning has user x).run r = some v) {y : Symbol}
    (hy : y ∈ promptSymbols (tab.entry x).prompts) : ∃ w, r y = some w := by
  rw [valueMeaning_tri hty] at h
  obtain ⟨modulesVal, -, hrest⟩ := Option.bind_eq_some_iff.mp h
  obtain ⟨visible, hvisible, -⟩ := Option.bind_eq_some_iff.mp hrest
  exact visibleMeaning_asks hvisible hy

end

/-! ## What holds while symbols are in progress -/

/-- `symbol_yes`, `symbol_mod` and `symbol_no`, which are valid from the start and stay so. -/
def fixedValue (x : Symbol) : Option SymbolValue :=
  if x = symbolYes then some ⟨.text (ascii "y"), .yes⟩
  else if x = symbolMod then some ⟨.text (ascii "m"), .mod⟩
  else if x = symbolNo then some ⟨.text (ascii "n"), .no⟩
  else none

/-- They have no type. -/
theorem fixedValue_typed {tab : Symbols} {x : Symbol} (hx : tab.type x ≠ .unknown) :
    fixedValue x = none := by
  have hconst : ∀ name, x ≠ .const name := by
    rintro name rfl
    refine hx ?_
    rw [Symbols.type, tab.const_entry]
    rfl
  unfold fixedValue
  rw [if_neg (show x ≠ symbolYes from hconst _), if_neg (show x ≠ symbolMod from hconst _),
    if_neg (show x ≠ symbolNo from hconst _)]

theorem fixedValue_tri {tab : Symbols} {x : Symbol}
    (hx : tab.type x = .boolean ∨ tab.type x = .tristate) : fixedValue x = none := by
  have htyped : tab.type x ≠ .unknown := by
    rcases hx with ht | ht <;> rw [ht] <;> decide
  exact fixedValue_typed htyped

/-- What is valid and not in progress has the value, the visibility and the dependencies it means
to have. `m` is `modules_val`, which
is the value of `modules_sym` where `M` says that this is valid. -/
structure Steady (tab : Symbols) (M : Prop) (m : Tristate) (hidden : Set Symbol) (s : State) :
    Prop where
  values : ∀ y v, s.view hidden y = some v → fixedValue y = none →
    (tab.valueMeaning (s.cells y).hasValue (s.cells y).user y).run (s.view hidden) = some v
  fixed : ∀ y v, fixedValue y = some v → s.view hidden y = some v
  located : ∀ y v, s.view hidden y = some v → tab.type y ≠ .unknown ∧ tab.type y ≠ .other →
    Located tab hidden s y
  begun : ∀ y ∈ hidden, (s.cells y).valid = true
  modulesVal : s.modulesVal = m
  modules : M → ∃ v, s.view hidden tab.modules = some v ∧ v.tri = m
  unselected : ∀ v, tab.isChoiceValue v = true → (s.cells v).revDep = .no
  user : ∀ c, tab.isChoice c = true → (s.cells c).user.val = .null ∨
    ∃ v ∈ tab.values c, (s.cells c).user.val = .symbol v

theorem Flagged.view {s s' : State} (h : Flagged s s') (hidden : Set Symbol) :
    s'.view hidden = s.view hidden := by
  funext y
  obtain ⟨w, hw⟩ := h.cells y
  unfold State.view
  rw [hw]

/-- What is known of a symbol depends on its visibility, its dependencies and the values known. -/
theorem Located.congr {tab : Symbols} {hidden hidden' : Set Symbol} {s s' : State} {x : Symbol}
    (h : Located tab hidden s x) (hview : s'.view hidden' = s.view hidden)
    (hcell : (s'.cells x).visible = (s.cells x).visible ∧
      (s'.cells x).dirDep = (s.cells x).dirDep ∧ (s'.cells x).revDep = (s.cells x).revDep) :
    Located tab hidden' s' x := by
  obtain ⟨hv, hd, hr⟩ := hcell
  refine ⟨?_, fun hno => ?_, fun hno => ?_⟩
  · rw [hview, hv]
    exact h.visible
  · rw [hview, hd]
    exact h.dirDep hno
  · rw [hview, hr]
    exact h.revDep hno

theorem Located.mono {tab : Symbols} {hidden hidden' : Set Symbol} {s : State} {x : Symbol}
    (h : Located tab hidden s x) (hbelow : Contained (s.view hidden) (s.view hidden')) :
    Located tab hidden' s x :=
  ⟨(tab.visibleMeaning x).mono _ _ hbelow _ h.visible,
    fun hno => (tab.dirMeaning x).mono _ _ hbelow _ (h.dirDep hno),
    fun hno => (tab.revMeaning x).mono _ _ hbelow _ (h.revDep hno)⟩

/-- The symbol that is marked is not known before and not known after. -/
theorem view_marked {s : State} {x : Symbol} (hx : (s.cells x).valid = false)
    (hidden : Set Symbol) :
    (s.set x fun c => { c with valid := true }).view (insert x hidden) = s.view hidden := by
  funext y
  by_cases hy : y = x
  · subst hy
    rw [view_none.mpr fun _ => Set.mem_insert y hidden, view_none.mpr fun h => ?_]
    rw [hx] at h
    cases h
  · refine Option.ext fun v => ?_
    rw [view_some, view_some, set_of_ne s _ hy]
    simp [hy]

namespace Steady
variable {tab : Symbols} {M : Prop} {m : Tristate} {hidden : Set Symbol} {s s' : State} {x : Symbol}

theorem flagged (h : Steady tab M m hidden s) (hf : Flagged s s') :
    Steady tab M m hidden s' := by
  have hcell : ∀ y, (s'.cells y).valid = (s.cells y).valid ∧
      (s'.cells y).hasValue = (s.cells y).hasValue ∧ (s'.cells y).user = (s.cells y).user ∧
      (s'.cells y).revDep = (s.cells y).revDep := by
    intro y
    obtain ⟨w, hw⟩ := hf.cells y
    rw [hw]
    exact ⟨rfl, rfl, rfl, rfl⟩
  refine ⟨fun y v hy hno => ?_, fun y v hy => ?_, fun y v hy hty => ?_, fun y hy => ?_,
    hf.modules.trans h.modulesVal, fun hM => ?_, fun v hv => ?_, fun c hc => ?_⟩
  · rw [hf.view] at hy ⊢
    rw [(hcell y).2.1, (hcell y).2.2.1]
    exact h.values y v hy hno
  · rw [hf.view]
    exact h.fixed y v hy
  · rw [hf.view] at hy
    refine (h.located y v hy hty).congr (hf.view hidden) ?_
    obtain ⟨w, hw⟩ := hf.cells y
    rw [hw]
    exact ⟨rfl, rfl, rfl⟩
  · rw [(hcell y).1]
    exact h.begun y hy
  · rw [hf.view]
    exact h.modules hM
  · rw [(hcell v).2.2.2]
    exact h.unselected v hv
  · rw [(hcell c).2.2.1]
    exact h.user c hc

/-- A symbol that is not known may change. -/
theorem own {f : Cell → Cell} (h : Steady tab M m hidden s) (hf : OwnChange tab x f)
    (hx : s.view hidden x = none) : Steady tab M m hidden (s.set x f) := by
  have hkept := (hf.kept s).user
  have hview := set_view hf.valid hx
  refine ⟨fun y v hy hno => ?_, fun y v hy => ?_, fun y v hy hty => ?_, fun y hy => ?_,
    h.modulesVal, fun hM => ?_, fun v hv => ?_, fun c hc => ?_⟩
  · rw [hview] at hy ⊢
    rw [(hkept y).1, (hkept y).2]
    exact h.values y v hy hno
  · rw [hview]
    exact h.fixed y v hy
  · rw [hview] at hy
    refine (h.located y v hy hty).congr hview ?_
    rw [set_of_ne s f (by rintro rfl; rw [hx] at hy; cases hy)]
    exact ⟨rfl, rfl, rfl⟩
  · rw [set_valid hf.valid]
    exact h.begun y hy
  · rw [hview]
    exact h.modules hM
  · by_cases hvx : v = x
    · subst hvx
      rw [set_self, (hf.deps hv _).2]
      exact h.unselected v hv
    · rw [set_of_ne s f hvx]
      exact h.unselected v hv
  · rw [(hkept c).2]
    exact h.user c hc

/-- A symbol is marked. -/
theorem mark (h : Steady tab M m hidden s) (hx : (s.cells x).valid = false) :
    Steady tab M m (insert x hidden) (s.set x fun c => { c with valid := true }) := by
  have hcell : ∀ y, ((s.set x fun c => { c with valid := true }).cells y).hasValue =
      (s.cells y).hasValue ∧
      ((s.set x fun c => { c with valid := true }).cells y).user = (s.cells y).user ∧
      ((s.set x fun c => { c with valid := true }).cells y).revDep = (s.cells y).revDep := by
    intro y
    by_cases hy : y = x
    · subst hy
      rw [set_self]
      exact ⟨rfl, rfl, rfl⟩
    · rw [set_of_ne s _ hy]
      exact ⟨rfl, rfl, rfl⟩
  refine ⟨fun y v hy hno => ?_, fun y v hy => ?_, fun y v hy hty => ?_, fun y hy => ?_,
    h.modulesVal, fun hM => ?_, fun v hv => ?_, fun c hc => ?_⟩
  -- `x` is valid now and hidden, so the same values are known
  · rw [view_marked hx] at hy ⊢
    rw [(hcell y).1, (hcell y).2.1]
    exact h.values y v hy hno
  · rw [view_marked hx]
    exact h.fixed y v hy
  · rw [view_marked hx] at hy
    refine (h.located y v hy hty).congr (view_marked hx hidden) ?_
    rw [set_of_ne s _ (by rintro rfl; rw [(view_some.mp hy).1] at hx; cases hx)]
    exact ⟨rfl, rfl, rfl⟩
  · by_cases hyx : y = x
    · rw [hyx, set_self]
    · rw [set_of_ne s _ hyx]
      exact h.begun y (hy.resolve_left hyx)
  · rw [view_marked hx]
    exact h.modules hM
  · rw [(hcell v).2.2]
    exact h.unselected v hv
  · rw [(hcell c).2.1]
    exact h.user c hc

/-- A symbol has its value. -/
theorem finish (h : Steady tab M m (insert x hidden) s)
    (hval : (tab.valueMeaning (s.cells x).hasValue (s.cells x).user x).run
      (s.view (insert x hidden)) = some (s.cells x).curr)
    (hlocated : tab.type x ≠ .unknown ∧ tab.type x ≠ .other → Located tab (insert x hidden) s x) :
    Steady tab M m hidden s := by
  have hbelow : Contained (s.view (insert x hidden)) (s.view hidden) := by
    intro y v hy
    rw [view_some] at hy ⊢
    exact ⟨hy.1, fun hh => hy.2.1 (Set.mem_insert_of_mem x hh), hy.2.2⟩
  refine ⟨fun y v hy hno => ?_, fun y v hy => hbelow y v (h.fixed y v hy), fun y v hy hty => ?_,
    fun y hy => h.begun y (Set.mem_insert_of_mem x hy), h.modulesVal, fun hM => ?_, h.unselected,
    h.user⟩
  · by_cases hyx : y = x
    · subst hyx
      rw [← (view_some.mp hy).2.2]
      exact (tab.valueMeaning _ _ y).mono _ _ hbelow _ hval
    · refine (tab.valueMeaning _ _ y).mono _ _ hbelow _ (h.values y v ?_ hno)
      rw [view_some] at hy ⊢
      exact ⟨hy.1, fun hh => hy.2.1 (hh.resolve_left hyx), hy.2.2⟩
  · by_cases hyx : y = x
    · subst hyx
      exact (hlocated hty).mono hbelow
    · refine (h.located y v ?_ hty).mono hbelow
      rw [view_some] at hy ⊢
      exact ⟨hy.1, fun hh => hy.2.1 (hh.resolve_left hyx), hy.2.2⟩
  · obtain ⟨v, hv, hm⟩ := h.modules hM
    exact ⟨v, hbelow _ v hv, hm⟩

end Steady

/-! ## A call keeps what is steady -/

/-- With `n` levels, a call for a symbol below all in progress leaves the state steady. -/
def Keeps (tab : Symbols) (rank : Symbol → Nat) (M : Prop) (m : Tristate) (n : Nat) : Prop :=
  ∀ hidden x s, (∀ y ∈ hidden, rank x < rank y) → M ∨ rank x < rank tab.modules →
    Steady tab M m hidden s →
    Outcome (fun _ => True)
      (fun s' => Steady tab M m hidden s' ∧ Kept tab ∅ s s' ∧ (s'.cells x).valid = true)
      (symCalcValue tab n x s)

section
variable {tab : Symbols} {rank : Symbol → Nat} (h : Ordered tab rank) {M : Prop} {m : Tristate}
include h

/-- The values of a choice block in progress are valid only while they are in progress too. -/
theorem Ordered.pending {hidden : Set Symbol} {c : Symbol} (hc : c ∈ hidden) :
    Pending tab (Steady tab M m hidden) hidden c := by
  intro s hs v hv
  refine ⟨fun hvalid => ?_, hs.begun v⟩
  by_contra hno
  -- a value that is known was made of the value of its block, which is not known yet
  have hvalue := hs.values v _ (view_some.mpr ⟨hvalid, hno, rfl⟩)
    (fixedValue_tri (h.under c v hv).2)
  obtain ⟨w, hw⟩ := valueMeaning_asks (h.under c v hv).2 hvalue (h.under c v hv).1
  exact (view_some.mp hw).2.1 hc

/-- While a symbol is calculated, everything that it relies on is there. -/
theorem Ordered.ready {n : Nat} (hn : Keeps tab rank M m n) {hidden : Set Symbol} {x : Symbol}
    (hbelow : ∀ y ∈ hidden, rank x < rank y) (hx : M ∨ rank x ≤ rank tab.modules) :
    Ready tab (symCalcValue tab n) (fun _ => True) (Steady tab M m (insert x hidden))
      (insert x hidden) True x := by
  have hlow : ∀ y, rank y < rank x → ∀ z ∈ insert x hidden, rank y < rank z := by
    intro y hy z hz
    rcases hz with rfl | hz
    · exact hy
    · exact hy.trans (hbelow z hz)
  have hanswers : ∀ y ∈ tab.reads x, Answers tab (symCalcValue tab n) (fun _ => True)
      (Steady tab M m (insert x hidden)) (insert x hidden) True y := by
    intro y hy
    have hrank := h.lower x y hy
    refine ⟨fun _ hmem => (hlow y hrank y hmem).false, fun s hs => ?_⟩
    refine (hn _ y s (hlow y hrank) (hx.imp id hrank.trans_le) hs).imp ?_
    rintro s' ⟨hs', hk, hv⟩
    exact ⟨hs', hk, hv, .inl trivial⟩
  -- the block is valid already when a prompt of a value asks for it
  have hself : Answers tab (symCalcValue tab n) (fun _ => True)
      (Steady tab M m (insert x hidden)) (insert x hidden \ {x}) True x := by
    refine ⟨fun _ hmem => hmem.2 rfl, fun s hs => ?_⟩
    have hv := hs.begun x (Set.mem_insert x hidden)
    cases n with
    | zero => exact .error trivial
    | succ n =>
      unfold symCalcValue
      rw [if_pos hv]
      exact .ok ⟨hs, .refl s, hv, .inl trivial⟩
  refine ⟨trivial, fun s s' hf hs => hs.flagged hf, fun s f hf hs => ?_, fun v hv s f hf hs => ?_,
    hanswers, fun v hv y hy => ?_, fun _ => ⟨Set.mem_insert x hidden, fun hmem => ?_⟩,
    fun _ => h.typed, fun _ ht s hs => ?_, fun _ => h.pending (Set.mem_insert x hidden),
    fun _ s hs hl c hc => ?_, fun _ hv s hs => hs.unselected x hv, fun _ hc => h.named x hc,
    fun _ hc s hs => hs.user x hc⟩
  · exact hs.own hf (view_none.mpr fun _ => Set.mem_insert x hidden)
  · exact hs.own hf (view_none.mpr (h.pending (Set.mem_insert x hidden) s hs v hv).mp)
  · by_cases hyx : y = x
    · exact hyx ▸ hself
    · have hy' := hanswers y (mem_reads_of_value hv hy hyx)
      exact ⟨fun hC hmem => hy'.seen hC hmem.1, hy'.call⟩
  · exact (h.value hmem).false
  · have hM : M := hx.resolve_right (h.modules ht).not_ge
    obtain ⟨v, hv, hm⟩ := hs.modules hM
    exact ⟨v, hv, hm.trans hs.modulesVal.symm⟩
  · have hvalue := (tab.values_iff c x).mpr hc
    obtain ⟨w, hw⟩ := visibleMeaning_asks hl.visible (h.under c x hvalue).1
    exact ⟨(view_some.mp hw).1, (view_some.mp hw).2.1⟩

/-- The value of the symbol that was called for is what it means. -/
theorem Ordered.calculated {n : Nat} (hn : Keeps tab rank M m n) {hidden : Set Symbol} {x : Symbol}
    (hbelow : ∀ y ∈ hidden, rank x < rank y) (hx : M ∨ rank x ≤ rank tab.modules) {s : State}
    (hs : Steady tab M m hidden s) (hno : (s.cells x).valid = false) :
    Outcome (fun _ => True)
      (fun s' => ∃ s₁, Steady tab M m hidden s₁ ∧ Ended tab x (s.cells x).curr s₁ s' ∧
        Kept tab ∅ s s' ∧ (s'.cells x).valid = true)
      (calcValue tab (symCalcValue tab n) x s) := by
  refine (calcValue_outcome (h.ready hn hbelow hx) (hs.mark hno)).imp ?_
  rintro s' ⟨s₁, hcalc, hend⟩
  obtain ⟨hk, hv⟩ := hcalc.kept_of_marked hno hend
  have huser := hcalc.kept.user x
  rw [set_self] at huser
  refine ⟨s₁, hcalc.keeps.finish ?_ (hcalc.located trivial), hend, hk, hv⟩
  rw [huser.1, huser.2]
  exact hcalc.value trivial

theorem Ordered.keeps (n : Nat) : Keeps tab rank M m n := by
  induction n with
  | zero => exact fun _ _ _ _ _ _ => .error trivial
  | succ n ih =>
    intro hidden x s hbelow hx hs
    unfold symCalcValue
    by_cases hv : (s.cells x).valid = true
    · rw [if_pos hv]
      exact .ok ⟨hs, .refl s, hv⟩
    rw [if_neg hv]
    -- `modules_sym` is valid, or comes after `x`
    have hne : x ≠ tab.modules := by
      rintro rfl
      rcases hx with hM | hlt
      · obtain ⟨v, hview, -⟩ := hs.modules hM
        exact hv (view_some.mp hview).1
      · exact hlt.false
    refine (h.calculated ih hbelow (hx.imp id le_of_lt) hs (by simpa using hv)).imp ?_
    rintro s' ⟨s₁, hs₁, hend, hk, hv'⟩
    exact ⟨hs₁.flagged ⟨hend.cells, hend.others hne⟩, hk, hv'⟩

end

/-! ## Coherent states -/

/-- What is so from the start: `modules_val` is the value of `modules_sym`, the constants have their
values, those of choice blocks have no reverse dependency, and the user chooses among them. -/
structure Sound (tab : Symbols) (s : State) : Prop where
  modulesVal : s.modulesVal = (s.cells tab.modules).curr.tri
  fixed : ∀ y v, fixedValue y = some v → (s.cells y).valid = true ∧ (s.cells y).curr = v
  unselected : ∀ v, tab.isChoiceValue v = true → (s.cells v).revDep = .no
  user : ∀ c, tab.isChoice c = true → (s.cells c).user.val = .null ∨
    ∃ v ∈ tab.values c, (s.cells c).user.val = .symbol v

/-- Every valid value is what the valid values make of it, that of `modules_sym` among them, and so
are the visibilities and the dependencies. -/
structure Coherent (tab : Symbols) (s : State) : Prop where
  sound : Sound tab s
  modules : (s.cells tab.modules).valid = true
  values : ∀ y v, s.view ∅ y = some v → fixedValue y = none →
    (tab.valueMeaning (s.cells y).hasValue (s.cells y).user y).run (s.view ∅) = some v
  located : ∀ y v, s.view ∅ y = some v → tab.type y ≠ .unknown ∧ tab.type y ≠ .other →
    Located tab ∅ s y

section
variable {tab : Symbols} {rank : Symbol → Nat} {s s' : State}

theorem Coherent.steady (hs : Coherent tab s) : Steady tab True s.modulesVal ∅ s := by
  refine ⟨hs.values, fun y v hy => ?_, hs.located, fun y hy => absurd hy (Set.notMem_empty y), rfl,
    fun _ => ?_, hs.sound.unselected, hs.sound.user⟩
  · obtain ⟨hvalid, hcurr⟩ := hs.sound.fixed y v hy
    exact view_some.mpr ⟨hvalid, Set.notMem_empty y, hcurr⟩
  exact ⟨_, view_some.mpr ⟨hs.modules, Set.notMem_empty _, rfl⟩, hs.sound.modulesVal.symm⟩

theorem Steady.coherent {m : Tristate} (hs : Steady tab True m ∅ s) : Coherent tab s := by
  obtain ⟨v, hv, hm⟩ := hs.modules trivial
  obtain ⟨hvalid, -, hcurr⟩ := view_some.mp hv
  refine ⟨⟨?_, fun y v hy => ?_, hs.unselected, hs.user⟩, hvalid, hs.values, hs.located⟩
  · rw [hs.modulesVal, hcurr, hm]
  · obtain ⟨hvalid', -, hcurr'⟩ := view_some.mp (hs.fixed y v hy)
    exact ⟨hvalid', hcurr'⟩

/-- `sym_calc_value` keeps what is coherent. -/
theorem symCalcValue_coherent (h : Ordered tab rank) {n : Nat} {x : Symbol} (hs : Coherent tab s)
    (hcall : symCalcValue tab n x s = .ok s') :
    Coherent tab s' ∧ Kept tab ∅ s s' ∧ (s'.cells x).valid = true := by
  obtain ⟨hok, -⟩ := h.keeps n ∅ x s (fun y hy => absurd hy (Set.notMem_empty y)) (.inl trivial)
    hs.steady
  obtain ⟨hs', hrest⟩ := hok s' hcall
  exact ⟨hs'.coherent, hrest⟩

/-- No symbol is valid but the constants that no list of symbols has. -/
def State.clear (s : State) : State :=
  { s with cells := fun y =>
      if fixedValue y = none then { s.cells y with valid := false } else s.cells y }

/-- `sym_clear_all_valid` -/
def symClearAllValid (tab : Symbols) (n : Nat) (s : State) : Except CalcStop State :=
  symCalcValue tab n tab.modules s.clear

theorem clear_cells (s : State) (y : Symbol) :
    (s.clear.cells y).hasValue = (s.cells y).hasValue ∧
      (s.clear.cells y).user = (s.cells y).user ∧ (s.clear.cells y).curr = (s.cells y).curr ∧
      (s.clear.cells y).revDep = (s.cells y).revDep := by
  unfold State.clear
  dsimp only
  split <;> exact ⟨rfl, rfl, rfl, rfl⟩

theorem clear_valid (s : State) {y : Symbol} (hy : fixedValue y = none) :
    (s.clear.cells y).valid = false := by
  unfold State.clear
  dsimp only
  rw [if_pos hy]

/-- Where nothing but the constants is valid everything is steady. -/
theorem Sound.steady (hs : Sound tab s) : Steady tab False s.modulesVal ∅ s.clear := by
  have hnone : ∀ y v, fixedValue y = none → s.clear.view ∅ y ≠ some v := by
    intro y v hno hy
    have hvalid := (view_some.mp hy).1
    rw [clear_valid s hno] at hvalid
    cases hvalid
  refine ⟨fun y v hy hno => absurd hy (hnone y v hno), fun y v hy => ?_,
    fun y v hy hty => absurd hy (hnone y v (fixedValue_typed hty.1)),
    fun y hy => absurd hy (Set.notMem_empty y), rfl, False.elim, fun v hv => ?_, fun c hc => ?_⟩
  · obtain ⟨hvalid, hcurr⟩ := hs.fixed y v hy
    refine view_some.mpr ⟨?_, Set.notMem_empty y, (clear_cells s y).2.2.1.trans hcurr⟩
    unfold State.clear
    dsimp only
    rwa [if_neg (by rw [hy]; exact Option.some_ne_none v)]
  · rw [(clear_cells s v).2.2.2]
    exact hs.unselected v hv
  · rw [(clear_cells s c).2.1]
    exact hs.user c hc

theorem symClearAllValid_coherent (h : Ordered tab rank)
    (hmodules : tab.type tab.modules = .boolean ∨ tab.type tab.modules = .tristate) {n : Nat}
    (hs : Sound tab s) (hcall : symClearAllValid tab n s = .ok s') :
    Coherent tab s' ∧ ∀ y, (s'.cells y).hasValue = (s.cells y).hasValue ∧
      (s'.cells y).user = (s.cells y).user := by
  unfold symClearAllValid at hcall
  cases n with
  | zero => cases hcall
  | succ n =>
    have htyped : tab.type tab.modules ≠ .unknown ∧ tab.type tab.modules ≠ .other := by
      rcases hmodules with ht | ht <;> rw [ht] <;> decide
    have hno : (s.clear.cells tab.modules).valid = false :=
      clear_valid s (fixedValue_tri hmodules)
    unfold symCalcValue at hcall
    rw [if_neg (by rw [hno]; exact Bool.false_ne_true)] at hcall
    obtain ⟨hok, -⟩ := h.calculated (h.keeps n) (fun y hy => absurd hy (Set.notMem_empty y))
      (.inr le_rfl) hs.steady hno
    obtain ⟨s₁, hs₁, hend, hk, hv⟩ := hok s' hcall
    have hflag : Flagged s₁ { s' with modulesVal := s₁.modulesVal } := ⟨hend.cells, rfl⟩
    have hs₂ := hs₁.flagged hflag
    have hcurr : (s'.cells tab.modules).curr = (s₁.cells tab.modules).curr := by
      obtain ⟨w, hw⟩ := hend.cells tab.modules
      rw [hw]
    have hval : s'.modulesVal = (s'.cells tab.modules).curr.tri := by
      -- an old value that is the new one is what `modules_val` has been all along
      rw [hend.modules rfl htyped, hcurr]
      split
      · next heq =>
        rw [hs₁.modulesVal, hs.modulesVal, ← heq, (clear_cells s _).2.2.1]
      · rfl
    refine ⟨⟨⟨hval, fun y v hy => ?_, hs₂.unselected, hs₂.user⟩, hv, hs₂.values,
      fun y v hy hty => (hs₂.located y v hy hty).congr rfl ⟨rfl, rfl, rfl⟩⟩, fun y => ?_⟩
    · obtain ⟨hvalid, -, hfixed⟩ := view_some.mp (hs₂.fixed y v hy)
      exact ⟨hvalid, hfixed⟩
    · have huser := hk.user y
      rwa [(clear_cells s y).1, (clear_cells s y).2.1] at huser

end

end Lichee.Kconfig

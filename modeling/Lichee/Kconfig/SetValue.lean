import Lichee.Kconfig.Order

/- What the user sets (package/config/symbol.c). `sym_set_tristate_value` takes a value that the
   symbol can have, and clears all values when this one changes; the value that is calculated
   then is the one that was set, and the symbols that do not depend on it keep theirs. -/
namespace Lichee.Kconfig
open Base

/-! ## The model -/

/-- `sym_tristate_within_range` -/
def symTristateWithinRange (tab : Symbols) (s : State) (x : Symbol) (val : Tristate) : Bool :=
  let type := tab.symGetType s x
  let cell := s.cells x
  if cell.visible = .no then false
  else if type ≠ .boolean ∧ type ≠ .tristate then false
  else if type = .boolean ∧ val = .mod then false
  else if cell.visible ≤ cell.revDep then false
  else if tab.isChoiceValue x = true ∧ cell.visible = .yes then val = .yes
  else cell.revDep ≤ val ∧ val ≤ cell.visible

/-- The choice that a choice block gets with the value `x`. -/
def chooseValue (tab : Symbols) (x : Symbol) (s : State) : State :=
  match (tab.entry x).choice with
  | none => s
  | some cs =>
    let s := s.set cs fun c => { c with hasValue := true, user := { c.user with val := .symbol x } }
    { s with cells := fun v =>
        if v ∈ tab.values cs ∧ (s.cells v).visible ≠ .no then { s.cells v with hasValue := true }
        else s.cells v }

/-- What `sym_set_tristate_value` stores. -/
def storeTristate (tab : Symbols) (x : Symbol) (val : Tristate) (s : State) : State :=
  let s := s.set x fun c => { c with hasValue := true }
  let s := if val = .yes then chooseValue tab x s else s
  s.set x fun c => { c with user := { c.user with tri := val } }

/-- `sym_set_tristate_value` -/
def symSetTristateValue (tab : Symbols) (n : Nat) (x : Symbol) (val : Tristate) (s : State) :
    Except CalcStop (Bool × State) :=
  let oldval := (s.cells x).curr.tri
  if oldval ≠ val ∧ symTristateWithinRange tab s x val = false then .ok (false, s)
  else if oldval = val then .ok (true, storeTristate tab x val s)
  else do
    let s ← symClearAllValid tab n (storeTristate tab x val s)
    return (true, s)

/-! ## A symbol outside of choice blocks -/

section
variable {tab : Symbols} {s : State} {x : Symbol} {val : Tristate}

theorem choice_none (hno : tab.isChoiceValue x = false) : (tab.entry x).choice = none := by
  rw [Symbols.isChoiceValue] at hno
  simpa using hno

/-- Only what the user has set for `x` changes. -/
theorem storeTristate_cells (hno : tab.isChoiceValue x = false) (y : Symbol) :
    (storeTristate tab x val s).cells y =
      if y = x then
        { s.cells x with hasValue := true, user := { (s.cells x).user with tri := val } }
      else s.cells y := by
  -- a symbol of no block makes no choice
  have hsame : ∀ s : State, (if val = .yes then chooseValue tab x s else s) = s := by
    intro s
    unfold chooseValue
    rw [choice_none hno]
    exact ite_self s
  unfold storeTristate
  dsimp only
  rw [hsame]
  split
  · next hy =>
    rw [hy, set_self, set_self]
  · next hy => rw [set_of_ne _ _ hy, set_of_ne _ _ hy]

theorem storeTristate_sound (hs : Sound tab s) (hno : tab.isChoiceValue x = false) :
    Sound tab (storeTristate tab x val s) := by
  have hcell : ∀ y, (storeTristate tab x val s).cells y = if y = x then
      { s.cells x with hasValue := true, user := { (s.cells x).user with tri := val } }
      else s.cells y := storeTristate_cells hno
  have hmodules : (storeTristate tab x val s).modulesVal = s.modulesVal := by
    unfold storeTristate chooseValue
    dsimp only
    rw [set_modulesVal]
    split
    · split <;> rfl
    · rfl
  -- only what the user has set of `x` is new
  refine ⟨?_, fun y v hy => ?_, fun v hv => ?_, fun c hc => ?_⟩
  · rw [hmodules, hs.modulesVal, hcell]
    split
    · next hy => rw [hy]
    · rfl
  · rw [hcell]
    split
    · next hyx =>
      rw [← hyx]
      exact hs.fixed y v hy
    · exact hs.fixed y v hy
  · rw [hcell]
    split
    · next hy =>
      rw [← hy]
      exact hs.unselected v hv
    · exact hs.unselected v hv
  · rw [hcell]
    split
    · next hy =>
      rw [← hy]
      exact hs.user c hc
    · exact hs.user c hc

end

/-- A value that is set and differs from the one there was is in range, and all values are
cleared. -/
theorem symSetTristateValue_ok {tab : Symbols} {s s' : State} {x : Symbol} {val : Tristate}
    {n : Nat} (hne : (s.cells x).curr.tri ≠ val)
    (hset : symSetTristateValue tab n x val s = .ok (true, s')) :
    symTristateWithinRange tab s x val = true ∧
      symClearAllValid tab n (storeTristate tab x val s) = .ok s' := by
  unfold symSetTristateValue at hset
  cases hrange : symTristateWithinRange tab s x val with
  | false =>
    rw [if_pos ⟨hne, hrange⟩] at hset
    cases hset
  | true =>
    rw [if_neg (by rw [hrange]; exact fun h => Bool.noConfusion h.2), if_neg hne] at hset
    obtain ⟨s₁, hclear, hret⟩ := bind_eq_ok.mp hset
    cases hret
    exact ⟨rfl, hclear⟩

/-- The value of `modules_sym` is known in a coherent state. -/
theorem knowsModules_coherent {tab : Symbols} : KnowsModules tab (Coherent tab) ∅ := by
  intro s hs
  exact ⟨_, view_some.mpr ⟨hs.modules, Set.notMem_empty _, rfl⟩, hs.sound.modulesVal.symm⟩

/-- A value between the reverse dependency and the visibility is what comes of it. -/
theorem tristate_between {visible revDep val : Tristate} (hlow : revDep ≤ val)
    (hhigh : val ≤ visible) : TwoType.or.op (TwoType.and.op val visible) revDep = val := by
  revert hlow hhigh
  cases visible <;> cases revDep <;> cases val <;> decide

/-- What it means for a value to be in range, outside of choice blocks. -/
theorem symTristateWithinRange_true {tab : Symbols} {s : State} {x : Symbol} {val : Tristate}
    (hno : tab.isChoiceValue x = false) (h : symTristateWithinRange tab s x val = true) :
    (tab.type x = .boolean ∨ tab.type x = .tristate) ∧ (s.cells x).visible ≠ .no ∧
      (tab.symGetType s x = .boolean → val ≠ .mod) ∧ (s.cells x).revDep ≤ val ∧
        val ≤ (s.cells x).visible := by
  unfold symTristateWithinRange at h
  dsimp only at h
  have hvalue : ¬(tab.isChoiceValue x = true ∧ (s.cells x).visible = .yes) := by
    rw [hno]
    exact fun h => Bool.false_ne_true h.1
  rw [if_neg hvalue] at h
  split at h
  · cases h
  · next hvis =>
    split at h
    · cases h
    · next hty =>
      split at h
      · cases h
      · next hnot =>
        split at h
        · cases h
        · have hbetween := of_decide_eq_true h
          refine ⟨?_, hvis, fun hb hm => hnot ⟨hb, hm⟩, hbetween⟩
          by_contra hother
          have hsame : tab.symGetType s x = tab.type x := if_neg fun h => hother (.inr h.1)
          rw [hsame] at hty
          exact hty ⟨fun h => hother (.inl h), fun h => hother (.inr h)⟩

/-- The value of a boolean or a tristate that the user has set and that is visible. -/
theorem triValue_user {tab : Symbols} {t : State} {x : Symbol} {user v : SymbolValue}
    (hty : tab.type x = .boolean ∨ tab.type x = .tristate) (hno : tab.isChoiceValue x = false)
    (hblock : tab.isChoice x = false) (ht : Coherent tab t) (hlocated : Located tab ∅ t x)
    (hvis : (t.cells x).visible ≠ .no)
    (hvalue : (tab.valueMeaning true user x).run (t.view ∅) = some v) :
    v.tri =
      let tri := TwoType.or.op (TwoType.and.op user.tri (t.cells x).visible) (t.cells x).revDep
      if tab.typeFor (t.cells x).visible t.modulesVal x = .boolean then modYes tri else tri := by
  rw [valueMeaning_tri hty] at hvalue
  have hknown : ∃ m, (tab.modulesMeaning x).run (t.view ∅) = some m ∧
      (tab.type x = .tristate → m = t.modulesVal) :=
    modulesMeaning_run (fun _ => knowsModules_coherent) ht
  obtain ⟨m, hm, heq⟩ := hknown
  have hselect : (tab.selectMeaning x).run (t.view ∅) = some (t.cells x).revDep := by
    rw [selectMeaning_plain hno]
    exact hlocated.revDep hno
  have hown : tab.ownMeaning true user x (t.cells x).visible =
      pure (TwoType.and.op user.tri (t.cells x).visible) := by
    unfold Symbols.ownMeaning
    exact if_neg fun h => h.elim hvis fun h => Bool.noConfusion h
  unfold Symbols.triValueMeaning Symbols.triMeaning Symbols.selectedMeaning at hvalue
  rw [choice_none hno] at hvalue
  simp only [Ask.run_bind, hm, hlocated.visible, hselect, hown, chosenMeaning_plain hblock,
    Ask.run_pure, Option.bind_some] at hvalue
  cases hvalue
  dsimp only
  rw [typeFor_modules heq]

/-! ## The value that was set -/

section
variable {tab : Symbols} {rank : Symbol → Nat} (h : Ordered tab rank)
include h

/-- The visibility and the reverse dependency of a symbol do not depend on what the user sets for
it. -/
theorem located_agree {s t : State} (hs : Coherent tab s) (ht : Coherent tab t) {x : Symbol}
    (huser : ∀ y, y ≠ x → (s.cells y).hasValue = (t.cells y).hasValue ∧
      (s.cells y).user = (t.cells y).user) (hno : tab.isChoiceValue x = false)
    (hls : Located tab ∅ s x) (hlt : Located tab ∅ t x) :
    (s.cells x).visible = (t.cells x).visible ∧ (s.cells x).revDep = (t.cells x).revDep ∧
      (tab.type x = .tristate → s.modulesVal = t.modulesVal) := by
  have hD : ∀ y ∈ {y | rank y < rank x}, ∀ z ∈ tab.reads y, z ∈ {y | rank y < rank x} :=
    fun y hy z hz => (h.lower y z hz).trans hy
  have hreads : ∀ z ∈ tab.reads x, z ∈ {y | rank y < rank x} := fun z hz => h.lower x z hz
  have hagree := coherent_agree h hs ht hD fun y hy => huser y (by
    rintro rfl
    exact absurd hy (lt_irrefl (rank y)))
  have hsame : ∀ {A : Type} {m : Known A} {a b : A}, Ask.AsksIn {y | y ∈ tab.reads x} m →
      m.run (s.view ∅) = some a → m.run (t.view ∅) = some b → a = b := by
    intro A m a b hm ha hb
    have hwithin : ∀ r, m.run (Ask.within {y | rank y < rank x} r) = m.run r := fun r =>
      hm _ _ fun z hz => Ask.within_of_mem (hreads z hz)
    rw [← hwithin] at ha hb
    exact m.agree hagree ha hb
  refine ⟨hsame visible_reads hls.visible hlt.visible, ?_, fun hty => ?_⟩
  · have hasks : Ask.AsksIn {y | y ∈ tab.reads x} (tab.revMeaning x) :=
      selectMeaning_plain hno ▸ selectMeaning_in
    exact hsame hasks (hls.revDep hno) (hlt.revDep hno)
  · have hasks : Ask.AsksIn {y | y ∈ tab.reads x} (tab.modulesMeaning x) :=
      modulesMeaning_in fun ht => mem_reads_modules (.inl ht)
    have hrun : ∀ {s : State}, Coherent tab s →
        (tab.modulesMeaning x).run (s.view ∅) = some s.modulesVal := by
      intro s hs
      obtain ⟨tri, htri, heq⟩ := modulesMeaning_run (fun _ => knowsModules_coherent) hs (x := x)
      rw [htri, heq hty]
    exact hsame hasks (hrun hs) (hrun ht)

/-- A value that the user sets is the value that the symbol then has, and the symbols that do not
depend on it keep theirs. -/
theorem symSetTristateValue_get
    (hmodules : tab.type tab.modules = .boolean ∨ tab.type tab.modules = .tristate)
    {s s' t : State} (hs : Coherent tab s) {x : Symbol} (hx : (s.cells x).valid = true)
    (hno : tab.isChoiceValue x = false) (hblock : tab.isChoice x = false) {val : Tristate}
    (hne : (s.cells x).curr.tri ≠ val) {n k : Nat}
    (hset : symSetTristateValue tab n x val s = .ok (true, s')) {xs : List Symbol} (hxs : x ∈ xs)
    (hcalls : calcAll tab k xs s' = .ok t) :
    (t.cells x).curr.tri = val ∧
      ∀ D : Set Symbol, (∀ y ∈ D, ∀ z ∈ tab.reads y, z ∈ D) → x ∉ D → ∀ y ∈ D,
        (s.cells y).valid = true → (t.cells y).valid = true →
          (t.cells y).curr = (s.cells y).curr := by
  obtain ⟨hrange, hclear⟩ := symSetTristateValue_ok hne hset
  obtain ⟨hs', hset'⟩ :=
    symClearAllValid_coherent h hmodules (storeTristate_sound hs.sound hno) hclear
  obtain ⟨ht, hk, hv⟩ := calcAll_coherent h hs' hcalls
  have huser : ∀ y, (t.cells y).hasValue = ((storeTristate tab x val s).cells y).hasValue ∧
      (t.cells y).user = ((storeTristate tab x val s).cells y).user := fun y =>
    ⟨(hk.user y).1.trans (hset' y).1, (hk.user y).2.trans (hset' y).2⟩
  -- the user has set nothing else in the meantime
  have hothers : ∀ y, y ≠ x → (s.cells y).hasValue = (t.cells y).hasValue ∧
      (s.cells y).user = (t.cells y).user := by
    intro y hy
    rw [(huser y).1, (huser y).2, storeTristate_cells hno, if_neg hy]
    exact ⟨rfl, rfl⟩
  refine ⟨?_, fun D hD hxD y hy hsy hty => ?_⟩
  · obtain ⟨hty, hvis, hnot, hlow, hhigh⟩ := symTristateWithinRange_true hno hrange
    have htyped : tab.type x ≠ .unknown ∧ tab.type x ≠ .other := by
      rcases hty with ht | ht <;> rw [ht] <;> decide
    have hview : s.view ∅ x = some _ := view_some.mpr ⟨hx, Set.notMem_empty x, rfl⟩
    have hview' : t.view ∅ x = some _ := view_some.mpr ⟨hv x hxs, Set.notMem_empty x, rfl⟩
    have hlocated := ht.located x _ hview' htyped
    obtain ⟨hvisible, hrevDep, hmod⟩ :=
      located_agree h hs ht hothers hno (hs.located x _ hview htyped) hlocated
    have hvalue := ht.values x _ hview' (fixedValue_typed htyped.1)
    rw [(huser x).1, (huser x).2, storeTristate_cells hno, if_pos rfl] at hvalue
    rw [triValue_user hty hno hblock ht hlocated (hvisible ▸ hvis) hvalue, ← hvisible, ← hrevDep]
    dsimp only
    rw [tristate_between hlow hhigh]
    split
    · next hbool =>
      have hget : tab.symGetType s x = .boolean := (typeFor_modules hmod).trans hbool
      cases val with
      | mod => exact absurd rfl (hnot hget)
      | _ => rfl
    · rfl
  · have hagree := coherent_agree h hs ht hD fun y hy => hothers y fun heq => hxD (heq ▸ hy)
    refine (hagree y _ _ (Ask.within_some.mpr ⟨hy, view_some.mpr ⟨hsy, ?_, rfl⟩⟩)
      (Ask.within_some.mpr ⟨hy, view_some.mpr ⟨hty, ?_, rfl⟩⟩)).symm
    · exact Set.notMem_empty y
    · exact Set.notMem_empty y

end

/-- The user turns the modules on. -/
theorem symSetTristateValue_get_modules : ∃ s s' t,
    recalculate oneBlock 4 [] userState = .ok s ∧
    symSetTristateValue oneBlock 4 modulesSymbol .yes s = .ok (true, s') ∧
    calcAll oneBlock 4 [modulesSymbol] s' = .ok t ∧
    (s.cells modulesSymbol).curr.tri = .no ∧ (t.cells modulesSymbol).curr.tri = .yes := by
  have hget : ∀ s s' t, recalculate oneBlock 4 [] userState = .ok s →
      symSetTristateValue oneBlock 4 modulesSymbol .yes s = .ok (true, s') →
      calcAll oneBlock 4 [modulesSymbol] s' = .ok t →
      (s.cells modulesSymbol).curr.tri = .no → (t.cells modulesSymbol).curr.tri = .yes := by
    intro s s' t hrun hset hcalls hno
    obtain ⟨hs, -, -⟩ := recalculate_coherent oneBlock_ordered (.inl rfl) userState_sound hrun
    have hne : (s.cells modulesSymbol).curr.tri ≠ .yes := by
      rw [hno]
      decide
    exact (symSetTristateValue_get oneBlock_ordered (.inl rfl) hs hs.modules rfl rfl hne hset
      List.mem_cons_self hcalls).1
  exact ⟨_, _, _, rfl, rfl, rfl, rfl, hget _ _ _ rfl rfl rfl rfl⟩

end Lichee.Kconfig

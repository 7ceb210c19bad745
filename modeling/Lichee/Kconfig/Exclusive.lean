import Lichee.Kconfig.Order

/- Choice blocks. Of the values of a block that have no defaults of their own at most one is "y",
   and that one is the choice of the block; a block that is "y" has a choice that is visible. -/
namespace Lichee.Kconfig
open Base

section
variable {tab : Symbols} {s : State} {v c : Symbol}

/-- A value that is visible as an "m" is a tristate, as far as the modules go. -/
theorem typeFor_mod {modulesVal tri : Tristate}
    (h : tab.promptTri modulesVal v tri = .mod) : tab.typeFor .mod modulesVal v = .tristate := by
  unfold Symbols.promptTri at h
  split at h
  · cases tri <;> cases h
  · next hno =>
    rw [not_or, not_not] at hno
    unfold Symbols.typeFor
    rw [if_neg fun h => h.2.elim (fun h => absurd h.2 (by decide)) hno.2]
    exact hno.1

/-- Without a default, the user alone makes a symbol visible as an "m" more than "n". -/
theorem ownMeaning_run (hdefaults : (tab.entry v).defaults = []) {has : Bool} {user : SymbolValue}
    {visible : Tristate} {r : Symbol → Option SymbolValue} {tri : Tristate}
    (h : (tab.ownMeaning has user v visible).run r = some tri) :
    tri = .no ∨ visible ≠ .no ∧ tri ≤ visible := by
  unfold Symbols.ownMeaning Symbols.defaultTriMeaning at h
  rw [hdefaults] at h
  split at h
  · left
    split at h
    · cases h
      rfl
    · cases h
      rfl
  · next hno =>
    cases h
    refine .inr ⟨fun h => hno (.inl h), ?_⟩
    generalize user.tri = t
    cases t <;> cases visible <;> decide

/-- A value of a choice block that is "y" is visible as such, and is the choice of its block. -/
theorem choiceValue_yes (hs : Coherent tab s) (hv : v ∈ tab.values c)
    (hty : tab.type v = .boolean ∨ tab.type v = .tristate) (hblock : tab.isChoice v = false)
    (hdefaults : (tab.entry v).defaults = []) (hvalid : (s.cells v).valid = true)
    (hyes : (s.cells v).curr.tri = .yes) :
    (s.cells v).visible = .yes ∧ (s.cells c).curr.val = .symbol v := by
  have hview : s.view ∅ v = some _ := view_some.mpr ⟨hvalid, Set.notMem_empty v, rfl⟩
  have htyped : tab.type v ≠ .unknown ∧ tab.type v ≠ .other := by
    rcases hty with ht | ht <;> rw [ht] <;> decide
  have hlocated := (hs.located v _ hview htyped).visible
  have hvalue := hs.values v _ hview (fixedValue_typed htyped.1)
  rw [valueMeaning_tri hty] at hvalue
  have hchoice := (tab.values_iff c v).mp hv
  have hselect : tab.selectMeaning v = pure .no := by
    unfold Symbols.selectMeaning Symbols.isChoiceValue
    rw [hchoice]
    rfl
  obtain ⟨m, hm, hrest⟩ := Option.bind_eq_some_iff.mp hvalue
  obtain ⟨visible, hvisible, hrest⟩ := Option.bind_eq_some_iff.mp hrest
  rw [hlocated] at hvisible
  cases hvisible
  rw [hselect] at hrest
  obtain ⟨tri, htri, hnew⟩ := Option.bind_eq_some_iff.mp hrest
  dsimp only at hnew
  rw [chosenMeaning_plain hblock] at hnew
  have hcurr : tri = .yes := by
    rw [← hyes, ← Option.some.inj hnew]
  subst hcurr
  unfold Symbols.triMeaning at htri
  rw [hchoice] at htri
  dsimp only at htri
  split at htri
  · next hvis =>
    obtain ⟨w, hw, hret⟩ := Option.bind_eq_some_iff.mp htri
    refine ⟨hvis, ?_⟩
    rw [(view_some.mp hw).2.2]
    by_contra hne
    have hno := Option.some.inj hret
    rw [if_neg hne] at hno
    cases hno
  · next hvis =>
    -- what is not visible as a "y" is no "y" without a default
    exfalso
    obtain ⟨own, hown, hret⟩ := Option.bind_eq_some_iff.mp htri
    have hfor := Option.some.inj hret
    rcases ownMeaning_run hdefaults hown with rfl | ⟨hno, hle⟩
    · split at hfor <;> cases hfor
    · obtain ⟨m', hm', hprompts⟩ := Option.bind_eq_some_iff.mp hlocated
      rw [hm] at hm'
      cases hm'
      obtain ⟨t, -, ht⟩ := Option.bind_eq_some_iff.mp hprompts
      have hmod : (s.cells v).visible = .mod := by
        cases h : (s.cells v).visible with
        | no => exact absurd h hno
        | mod => rfl
        | yes => exact absurd h hvis
      rw [hmod] at hle hfor ht
      rw [if_neg (by rw [typeFor_mod (Option.some.inj ht)]; decide)] at hfor
      revert hle hfor
      cases own <;> decide

end

/-! ## The choice of a block -/

/-- Tables that know the same of each symbol as far as its tristate and its text go. -/
structure SameTri (tab : Symbols) (r r' : Symbol → Option SymbolValue) : Prop where
  tri : ∀ y, (r y).map (·.tri) = (r' y).map (·.tri)
  text : ∀ y, (r y).map (tab.stringOf y) = (r' y).map (tab.stringOf y)

namespace SameTri
variable {tab : Symbols} {r r' : Symbol → Option SymbolValue} (h : SameTri tab r r')
include h

theorem expr (e : Expr) : (tab.exprMeaning e).run r = (tab.exprMeaning e).run r' := by
  induction e with
  | symbol x =>
    have htri := h.tri x
    simp only [Symbols.exprMeaning, Ask.run_bind, Ask.run_key, Ask.run_pure]
    rwa [Option.map_eq_bind, Option.map_eq_bind] at htri
  | not e ih => simp only [Symbols.exprMeaning, Ask.run_bind, Ask.run_pure, ih]
  | two type e1 e2 ih1 ih2 =>
    simp only [Symbols.exprMeaning, Ask.run_bind, Ask.run_pure, ih1, ih2]
  | comp type x y =>
    -- a comparison asks for the two texts
    have hform : ∀ r, (tab.exprMeaning (.comp type x y)).run r =
        ((r x).map (tab.stringOf x)).bind fun str1 =>
          ((r y).map (tab.stringOf y)).bind fun str2 => some (type.value (str1 == str2)) := by
      intro r
      simp only [Option.bind_map]
      rfl
    rw [hform, hform, h.text x, h.text y]

theorem dep (e : Option Expr) : (tab.depMeaning e).run r = (tab.depMeaning e).run r' := by
  cases e with
  | none => rfl
  | some e => exact h.expr e

theorem prompts (ps : List (Option Expr)) (tri : Tristate) :
    (tab.promptsMeaning ps tri).run r = (tab.promptsMeaning ps tri).run r' := by
  induction ps generalizing tri with
  | nil => rfl
  | cons p ps ih => simp only [Symbols.promptsMeaning, Ask.run_bind, h.dep, ih]

theorem visible (x : Symbol) : (tab.visibleMeaning x).run r = (tab.visibleMeaning x).run r' := by
  have hmodules : (tab.modulesMeaning x).run r = (tab.modulesMeaning x).run r' := by
    have htri := h.tri tab.modules
    unfold Symbols.modulesMeaning
    split
    · simp only [Ask.run_bind, Ask.run_key, Ask.run_pure]
      rwa [Option.map_eq_bind, Option.map_eq_bind] at htri
    · rfl
  simp only [Symbols.visibleMeaning, Ask.run_bind, Ask.run_pure, hmodules, h.prompts]

end SameTri

section
variable {tab : Symbols} {r : Symbol → Option SymbolValue} {c v : Symbol}

/-- A value that is seen is one of the block, and was seen as its prompts mean. -/
theorem choicesMeaning_seen {vs : List Symbol} {seen : List (Symbol × Tristate)}
    (h : (tab.choicesMeaning c vs).run r = some seen) (hv : Symbols.seenAs seen v ≠ .no) :
    v ∈ vs ∧ (Ask.assuming c (tab.tentative c) (tab.visibleMeaning v)).run r =
      some (Symbols.seenAs seen v) := by
  induction vs generalizing seen with
  | nil =>
    cases h
    exact absurd rfl hv
  | cons w vs ih =>
    obtain ⟨tri, htri, hrest⟩ := Option.bind_eq_some_iff.mp h
    obtain ⟨rest, hknown, hseen⟩ := Option.bind_eq_some_iff.mp hrest
    cases hseen
    unfold Symbols.seenAs at hv ⊢
    rw [List.lookup_cons] at hv ⊢
    by_cases hvw : v = w
    · subst hvw
      simp only [beq_self_eq_true] at hv ⊢
      exact ⟨List.mem_cons_self, htri⟩
    · rw [beq_eq_false_iff_ne.mpr hvw] at hv ⊢
      obtain ⟨hmem, hrun⟩ := ih hknown hv
      exact ⟨List.mem_cons_of_mem w hmem, hrun⟩

/-- A default that is taken has been seen. -/
theorem visibleDefaultMeaning_seen {seen : List (Symbol × Tristate)} {ds : List Default}
    (h : (tab.visibleDefaultMeaning seen ds).run r = some (some v)) :
    Symbols.seenAs seen v ≠ .no := by
  induction ds with
  | nil => cases h
  | cons d ds ih =>
    obtain ⟨tri, -, hrest⟩ := Option.bind_eq_some_iff.mp h
    dsimp only at hrest
    split at hrest
    · exact ih hrest
    · split at hrest
      · split at hrest
        · exact ih hrest
        · next hseen =>
          cases hrest
          exact hseen
      · exact ih hrest

/-- A block that is "y" has a choice that it sees. -/
theorem choiceMeaning_seen {user w : SymbolValue} (h : (tab.choiceMeaning user c).run r = some w)
    (hyes : w.tri = .yes) : ∃ v ∈ tab.values c, w = ⟨.symbol v, .yes⟩ ∧ ∃ tri ≠ .no,
      (Ask.assuming c (tab.tentative c) (tab.visibleMeaning v)).run r = some tri := by
  obtain ⟨seen, hseen, hrest⟩ := Option.bind_eq_some_iff.mp h
  -- whoever is chosen, by the user or by default, was seen
  have hdone : ∀ v, Symbols.seenAs seen v ≠ .no → w = Symbols.chosenValue (some v) →
      ∃ v ∈ tab.values c, w = ⟨.symbol v, .yes⟩ ∧ ∃ tri ≠ .no,
        (Ask.assuming c (tab.tentative c) (tab.visibleMeaning v)).run r = some tri := by
    intro v hv hw
    obtain ⟨hmem, hrun⟩ := choicesMeaning_seen hseen hv
    exact ⟨v, hmem, hw, _, hv, hrun⟩
  dsimp only at hrest
  split at hrest
  · next v huser =>
    cases hrest
    refine hdone v ?_ rfl
    unfold Symbols.userMeaning at huser
    split at huser
    · split at huser
      · cases huser
      · next hno =>
        cases huser
        exact hno
    · cases huser
  · obtain ⟨o, ho, hret⟩ := Option.bind_eq_some_iff.mp hrest
    cases o with
    | some v =>
      cases hret
      exact hdone v (visibleDefaultMeaning_seen ho) rfl
    | none =>
      have hw := Option.some.inj hret
      cases hfind : (tab.values c).find? fun v => Symbols.seenAs seen v ≠ .no with
      | none =>
        rw [hfind] at hw
        rw [← hw] at hyes
        cases hyes
      | some v =>
        rw [hfind] at hw
        exact hdone v (by simpa using List.find?_some hfind) hw.symm

end

/-- A block that is "y" has a choice, which is visible. -/
theorem block_yes {tab : Symbols} {s : State} {c : Symbol} (hs : Coherent tab s)
    (hblock : tab.isChoice c = true) (hty : tab.type c = .boolean ∨ tab.type c = .tristate)
    (hvalid : (s.cells c).valid = true) (hyes : (s.cells c).curr.tri = .yes) :
    ∃ v ∈ tab.values c, (s.cells c).curr = ⟨.symbol v, .yes⟩ ∧ ∃ tri ≠ .no,
      (tab.visibleMeaning v).run (s.view ∅) = some tri := by
  have hview : s.view ∅ c = some _ := view_some.mpr ⟨hvalid, Set.notMem_empty c, rfl⟩
  have hvalue := hs.values c _ hview (fixedValue_tri hty)
  rw [valueMeaning_tri hty] at hvalue
  obtain ⟨m, -, hrest⟩ := Option.bind_eq_some_iff.mp hvalue
  obtain ⟨visible, -, hrest⟩ := Option.bind_eq_some_iff.mp hrest
  obtain ⟨revDep, -, hrest⟩ := Option.bind_eq_some_iff.mp hrest
  obtain ⟨tri, -, hchosen⟩ := Option.bind_eq_some_iff.mp hrest
  unfold Symbols.chosenMeaning at hchosen
  dsimp only at hchosen
  split at hchosen
  · obtain ⟨v, hv, hcurr, t, ht, hrun⟩ := choiceMeaning_seen hchosen hyes
    refine ⟨v, hv, hcurr, t, ht, ?_⟩
    -- what the block had while its values were looked at is as good as what it has
    have hsame : SameTri tab (s.view ∅)
        (Function.update (s.view ∅) c (some (tab.tentative c))) := by
      refine ⟨fun y => ?_, fun y => ?_⟩ <;> by_cases hy : y = c
      · rw [hy, Function.update_self, hview, hcurr]
        rfl
      · rw [Function.update_of_ne hy]
      · rw [hy, Function.update_self, hview, hcurr]
        unfold Symbols.stringOf
        rcases hty with hb | hb <;> rw [hb] <;> rfl
      · rw [Function.update_of_ne hy]
    rw [hsame.visible v]
    exact hrun
  · next hno =>
    have hcurr := Option.some.inj hchosen
    rw [← hcurr] at hyes
    exact absurd ⟨hblock, hyes⟩ hno

/-- Whatever the symbols were called for in, at most one of the values of a choice block is "y",
and it is the choice of the block. -/
theorem recalculate_exclusive {tab : Symbols} {rank : Symbol → Nat} (h : Ordered tab rank)
    (hmodules : tab.type tab.modules = .boolean ∨ tab.type tab.modules = .tristate)
    {s s' : State} (hs : Sound tab s) {n : Nat} {xs : List Symbol}
    (hxs : recalculate tab n xs s = .ok s') {c : Symbol}
    (hplain : ∀ v ∈ tab.values c, tab.isChoice v = false ∧ (tab.entry v).defaults = [])
    {v : Symbol} (hv : v ∈ tab.values c) (hvx : v ∈ xs) (hyes : (s'.cells v).curr.tri = .yes) :
    (s'.cells v).visible = .yes ∧ (s'.cells c).curr.val = .symbol v ∧
      ∀ w ∈ tab.values c, w ∈ xs → (s'.cells w).curr.tri = .yes → w = v := by
  obtain ⟨hs', -, hvalid⟩ := recalculate_coherent h hmodules hs hxs
  have hone : ∀ w ∈ tab.values c, w ∈ xs → (s'.cells w).curr.tri = .yes →
      (s'.cells w).visible = .yes ∧ (s'.cells c).curr.val = .symbol w := fun w hw hwx hw' =>
    choiceValue_yes hs' hw (h.under c w hw).2 (hplain w hw).1 (hplain w hw).2 (hvalid w hwx) hw'
  obtain ⟨hvis, hval⟩ := hone v hv hvx hyes
  refine ⟨hvis, hval, fun w hw hwx hw' => ?_⟩
  have hval' := (hone w hw hwx hw').2
  rw [hval] at hval'
  cases hval'
  rfl

theorem recalculate_exclusive_first : ∃ s,
    recalculate oneBlock 4 [firstValue, secondValue] userState = .ok s ∧
    (s.cells firstValue).curr.tri = .yes ∧
    (s.cells blockSymbol).curr.val = .symbol firstValue := by
  have hfirst : ∀ s, recalculate oneBlock 4 [firstValue, secondValue] userState = .ok s →
      (s.cells firstValue).curr.tri = .yes →
      (s.cells blockSymbol).curr.val = .symbol firstValue := by
    intro s hrun hyes
    have hplain : ∀ v ∈ oneBlock.values blockSymbol,
        oneBlock.isChoice v = false ∧ (oneBlock.entry v).defaults = [] := by
      decide
    have hmem : firstValue ∈ oneBlock.values blockSymbol := by decide
    exact (recalculate_exclusive oneBlock_ordered (.inl rfl) userState_sound hrun hplain hmem
      List.mem_cons_self hyes).2.1
  exact ⟨_, rfl, rfl, hfirst _ rfl rfl⟩

/-- A block that is "y" has a choice among its values; if this is called for, it is visible, and
"y" if it is visible as such. -/
theorem recalculate_chosen {tab : Symbols} {rank : Symbol → Nat} (h : Ordered tab rank)
    (hmodules : tab.type tab.modules = .boolean ∨ tab.type tab.modules = .tristate)
    {s s' : State} (hs : Sound tab s) {n : Nat} {xs : List Symbol}
    (hxs : recalculate tab n xs s = .ok s') {c : Symbol} (hblock : tab.isChoice c = true)
    (hcx : c ∈ xs) (hyes : (s'.cells c).curr.tri = .yes) :
    ∃ v ∈ tab.values c, (s'.cells c).curr = ⟨.symbol v, .yes⟩ ∧ (v ∈ xs →
      (s'.cells v).visible ≠ .no ∧
        ((s'.cells v).visible = .yes → tab.isChoice v = false → (s'.cells v).curr.tri = .yes)) := by
  obtain ⟨hs', -, hvalid⟩ := recalculate_coherent h hmodules hs hxs
  obtain ⟨v, hv, hcurr, t, ht, hrun⟩ :=
    block_yes hs' hblock (h.typed c hblock) (hvalid c hcx) hyes
  refine ⟨v, hv, hcurr, fun hvx => ?_⟩
  have hty := (h.under c v hv).2
  have htyped : tab.type v ≠ .unknown ∧ tab.type v ≠ .other := by
    rcases hty with hb | hb <;> rw [hb] <;> decide
  have hview : s'.view ∅ v = some _ := view_some.mpr ⟨hvalid v hvx, Set.notMem_empty v, rfl⟩
  have hlocated := (hs'.located v _ hview htyped).visible
  refine ⟨?_, fun hvis hplain => ?_⟩
  · rw [hrun] at hlocated
    rwa [← Option.some.inj hlocated]
  · have hvalue := hs'.values v _ hview (fixedValue_typed htyped.1)
    rw [valueMeaning_tri hty] at hvalue
    obtain ⟨m, -, hrest⟩ := Option.bind_eq_some_iff.mp hvalue
    obtain ⟨visible, hvisible, hrest⟩ := Option.bind_eq_some_iff.mp hrest
    obtain ⟨revDep, -, hrest⟩ := Option.bind_eq_some_iff.mp hrest
    obtain ⟨tri, htri, hnew⟩ := Option.bind_eq_some_iff.mp hrest
    rw [hlocated, hvis] at hvisible
    cases hvisible
    dsimp only at hnew
    rw [chosenMeaning_plain hplain] at hnew
    rw [← Option.some.inj hnew]
    -- a value that is visible as "y" is compared with the choice of its block
    unfold Symbols.triMeaning at htri
    rw [(tab.values_iff c v).mp hv] at htri
    dsimp only at htri
    rw [if_pos rfl] at htri
    obtain ⟨w, hw, hret⟩ := Option.bind_eq_some_iff.mp htri
    have hw' : w = ⟨.symbol v, .yes⟩ := (view_some.mp hw).2.2.symm.trans hcurr
    rw [← Option.some.inj hret, hw']
    exact if_pos rfl

theorem recalculate_chosen_first : ∃ s,
    recalculate oneBlock 4 [blockSymbol, firstValue] userState = .ok s ∧
    ∃ v ∈ oneBlock.values blockSymbol, (s.cells blockSymbol).curr = ⟨.symbol v, .yes⟩ := by
  have hchosen : ∀ s, recalculate oneBlock 4 [blockSymbol, firstValue] userState = .ok s →
      (s.cells blockSymbol).curr.tri = .yes →
      ∃ v ∈ oneBlock.values blockSymbol, (s.cells blockSymbol).curr = ⟨.symbol v, .yes⟩ := by
    intro s hrun hyes
    obtain ⟨v, hv, hcurr, -⟩ := recalculate_chosen oneBlock_ordered (.inl rfl) userState_sound hrun
      rfl List.mem_cons_self hyes
    exact ⟨v, hv, hcurr⟩
  exact ⟨_, rfl, hchosen _ rfl rfl⟩

end Lichee.Kconfig

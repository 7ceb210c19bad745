import Lichee.Kconfig.Choices

/- What `sym_calc_value` leaves of the symbol it is called for. While a symbol is calculated it is
   valid, with a value that is not its own yet; `Ready` says what has to hold until then, and
   `Calculated` what holds in the end: the visibility, the dependencies and the value are what
   they mean. -/
namespace Lichee.Kconfig
open Base

section
variable {tab : Symbols} {call : Symbol → State → Except CalcStop State} {E : CalcStop → Prop}
  {P : State → Prop} {hidden : Set Symbol} {C : Prop} {x : Symbol}

/-! ## What a calculation relies on -/

theorem mem_reads_prompts {y : Symbol} (hy : y ∈ promptSymbols (tab.entry x).prompts) :
    y ∈ tab.reads x := by
  simp only [Symbols.reads, List.mem_append]
  tauto

theorem mem_reads_dependencies {y : Symbol} (hy : y ∈ tab.dependencySymbols x) :
    y ∈ tab.reads x := by
  simp only [Symbols.reads, List.mem_append]
  tauto

theorem mem_reads_defaults {y : Symbol} (hy : y ∈ tab.defaultSymbols x) : y ∈ tab.reads x := by
  simp only [Symbols.reads, List.mem_append]
  tauto

theorem mem_reads_ranges {y : Symbol} (hy : y ∈ rangeSymbols (tab.entry x).ranges) :
    y ∈ tab.reads x := by
  simp only [Symbols.reads, List.mem_append]
  tauto

/-- A prompt of a value of a choice block is looked at for the block. -/
theorem mem_reads_of_value {v y : Symbol} (hv : v ∈ tab.values x)
    (hy : y ∈ promptSymbols (tab.entry v).prompts) (hne : y ≠ x) : y ∈ tab.reads x := by
  have hmem : y ∈ tab.valueSymbols x :=
    List.mem_flatMap.mpr ⟨v, hv, List.mem_filter.mpr ⟨hy, by simpa using hne⟩⟩
  simp only [Symbols.reads, List.mem_append]
  tauto

theorem mem_reads_modules
    (hx : tab.type x = .tristate ∨ ∃ v ∈ tab.values x, tab.type v = .tristate) :
    tab.modules ∈ tab.reads x := by
  have hmem : tab.modules ∈ tab.moduleSymbols x := by
    unfold Symbols.moduleSymbols
    rw [if_pos hx]
    exact List.mem_singleton_self _
  simp only [Symbols.reads, List.mem_append]
  tauto

/-- What the calculation of `x` relies on. -/
structure Ready (tab : Symbols) (call : Symbol → State → Except CalcStop State)
    (E : CalcStop → Prop) (P : State → Prop) (hidden : Set Symbol) (C : Prop) (x : Symbol) :
    Prop where
  bad : E .badText
  write : Unwritten P
  own : Unowned tab P x
  values : ∀ v ∈ tab.values x, Unowned tab P v
  answers : ∀ y ∈ tab.reads x, Answers tab call E P hidden C y
  prompts : ∀ v ∈ tab.values x, ∀ y ∈ promptSymbols (tab.entry v).prompts,
    Answers tab call E P (hidden \ {x}) C y
  inside : C → x ∈ hidden ∧ x ∉ tab.values x
  typed : C → tab.ChoiceTyped
  modules : C → tab.type x = .tristate ∨ (∃ v ∈ tab.values x, tab.type v = .tristate) →
    KnowsModules tab P hidden
  pending : C → Pending tab P hidden x
  block : C → ∀ s, P s → Located tab hidden s x → ∀ c, (tab.entry x).choice = some c →
    (s.cells c).valid = true ∧ c ∉ hidden
  unselected : C → tab.isChoiceValue x = true → ∀ s, P s → (s.cells x).revDep = .no
  named : C → tab.isChoice x = true → DefaultsNamed tab x
  user : C → tab.isChoice x = true → UserChooses tab P x

/-- What the calculation of `x` leaves, for what its value means. -/
structure Calculated (tab : Symbols) (P : State → Prop) (hidden : Set Symbol) (C : Prop)
    (x : Symbol) (m : Known SymbolValue) (s s' : State) : Prop where
  keeps : P s'
  kept : Kept tab {x} s s'
  located : C → tab.type x ≠ .unknown ∧ tab.type x ≠ .other → Located tab hidden s' x
  value : C → m.run (s'.view hidden) = some (s'.cells x).curr

/-- What is known of `x` when its value is looked for. -/
structure Started (tab : Symbols) (P : State → Prop) (hidden : Set Symbol) (C : Prop) (x : Symbol)
    (s s' : State) : Prop where
  keeps : P s'
  kept : Kept tab {x} s s'
  valid : (s'.cells x).valid = true
  located : C → Located tab hidden s' x
  block : C → ∀ c, (tab.entry x).choice = some c → (s'.cells c).valid = true ∧ c ∉ hidden

section
variable (h : Ready tab call E P hidden C x)
include h

/-- `sym_calc_visibility`, and the value that `x` has until it has its own. -/
theorem started_outcome {s : State} (hs : P s) (hv : (s.cells x).valid = true) :
    Outcome E (fun s' => Started tab P hidden C x s
        (s'.set x fun c => { c with curr := emptyValue (tab.type x) }))
      (symCalcVisibility tab call x
        (if tab.isChoiceValue x = true then s
          else s.set x fun c => { c with write := false })) := by
  have hflag : Flagged s
      (if tab.isChoiceValue x = true then s else s.set x fun c => { c with write := false }) := by
    split
    · exact ⟨fun y => ⟨_, rfl⟩, rfl⟩
    · exact write_flagged s x false
  generalize (if tab.isChoiceValue x = true then s
    else s.set x fun c => { c with write := false }) = s₁ at hflag ⊢
  have hk₁ : Kept tab ∅ s s₁ := hflag.kept
  have hv₁ := hk₁.valid x hv
  refine (symCalcVisibility_outcome (.inl h.bad) (fun y hy => h.answers y (mem_reads_prompts hy))
    (fun y hy => h.answers y (mem_reads_dependencies hy))
    (fun hC ht => h.modules hC (.inl ht)) h.own
    (fun hC s' _ => view_none.mpr fun _ => (h.inside hC).1) (h.write _ _ hflag hs)
    fun _ => hv₁).imp ?_
  intro s₂ hvisited
  have hchange : ValueChange fun c => { c with curr := emptyValue (tab.type x) } :=
    fun c => ⟨_, rfl⟩
  have hlater : Later tab P x s₂ (s₂.set x fun c => { c with curr := emptyValue (tab.type x) }) :=
    .set hchange h.own hvisited.keeps
  have hblock : C → ∀ c, (tab.entry x).choice = some c → (s₂.cells c).valid = true ∧ c ∉ hidden :=
    fun hC => h.block hC s₂ hvisited.keeps (hvisited.located hC)
  refine ⟨hlater.keeps, ?_, hlater.kept.valid x (hvisited.kept.valid x hv₁), fun hC => ?_,
    fun hC c hc => ?_⟩
  · exact (hk₁.mono (Set.empty_subset _)).trans (hvisited.kept.trans hlater.kept)
  · exact hlater.located (h.inside hC).1 (hvisited.located hC) fun c hc =>
      (hblock hC c ((tab.values_iff c x).mp hc)).1
  · exact ⟨hlater.kept.valid c (hblock hC c hc).1, (hblock hC c hc).2⟩

/-- The choice of a choice block that is "y", and any other value. -/
theorem calcChosen_outcome {newval : SymbolValue} {s : State} (hs : P s)
    (hv : (s.cells x).valid = true) (hcurr : (s.cells x).curr = newval)
    (hval : C → newval.val = (emptyValue (tab.type x)).val) :
    Outcome E (fun s' => P s' ∧ Kept tab {x} s s' ∧ (C → Later tab P x s s' ∧
        (tab.chosenMeaning (s.cells x).user x newval).run (s'.view hidden) =
          some (s'.cells x).curr))
      (calcChosen tab call x newval s) := by
  have hdefaults : ∀ d ∈ (tab.entry x).defaults, ∀ y ∈ depSymbols d.visible,
      Answers tab call E P hidden C y := fun d hd y hy =>
    h.answers y (mem_reads_defaults (List.mem_flatMap_of_mem hd (List.mem_append_left _ hy)))
  unfold calcChosen Symbols.chosenMeaning
  split
  · next hyes =>
    have htentative : C → (s.cells x).curr = tab.tentative x := by
      intro hC
      obtain ⟨val, tri⟩ := newval
      rw [hcurr, Symbols.tentative, ← hval hC, ← hyes.2]
    refine (symCalcChoice_outcome (.inl h.bad) h.prompts hdefaults
      (fun hC v hm ht => h.modules hC (.inr ⟨v, hm, ht⟩)) h.own h.values h.pending h.inside
      (.inl h.bad) (fun hC => h.named hC hyes.1) (.inl h.bad) (fun hC => h.user hC hyes.1) hs
      (fun _ => hv) htentative).imp ?_
    rintro s' ⟨hp, hk, hc⟩
    exact ⟨hp, hk, fun hC => ⟨(hc hC).later, (hc hC).value⟩⟩
  · next hno =>
    refine .ok ⟨hs, .refl s, fun _ => ⟨.refl hs, ?_⟩⟩
    rw [hcurr]
    rfl

end

/-- `modules_val` matters to a tristate only. -/
theorem triMeaning_modules {has : Bool} {user : SymbolValue}
    {visible revDep modulesVal modulesVal' : Tristate}
    (h : tab.type x = .tristate → modulesVal = modulesVal') :
    tab.triMeaning has user x visible revDep modulesVal =
      tab.triMeaning has user x visible revDep modulesVal' := by
  unfold Symbols.triMeaning Symbols.selectedMeaning
  rw [typeFor_modules h]

/-- What a boolean or a tristate asks of `modules_val`, where its value is known. -/
theorem modulesMeaning_run (hmod : tab.type x = .tristate → KnowsModules tab P hidden) {s : State}
    (hs : P s) : ∃ tri, (tab.modulesMeaning x).run (s.view hidden) = some tri ∧
      (tab.type x = .tristate → tri = s.modulesVal) := by
  unfold Symbols.modulesMeaning
  by_cases ht : tab.type x = .tristate
  · obtain ⟨v, hv, hm⟩ := hmod ht s hs
    rw [if_pos ht]
    refine ⟨v.tri, ?_, fun _ => hm⟩
    rw [Ask.run_bind, Ask.run_key, hv]
    rfl
  · rw [if_neg ht]
    exact ⟨.no, rfl, fun h => absurd h ht⟩

/-- `newval` of a symbol with a text -/
theorem calcNewval_eq (hb : tab.type x ≠ .boolean) (ht : tab.type x ≠ .tristate) (s : State) :
    calcNewval tab call x s = (do
      let (val, s) ← calcText tab call x s
      return (⟨val, .no⟩, s)) := by
  have hfor : tab.symGetType s x = tab.type x := by
    unfold Symbols.symGetType Symbols.typeFor
    exact if_neg fun h => ht h.1
  unfold calcNewval
  rw [hfor]
  split
  · next h => exact absurd h hb
  · next h => exact absurd h ht
  · rfl

section
variable (h : Ready tab call E P hidden C x)
include h

theorem calcTyped_tri (hty : tab.type x = .boolean ∨ tab.type x = .tristate) {s : State}
    (hs : P s) (hv : (s.cells x).valid = true) :
    Outcome E (Calculated tab P hidden C x
        (tab.triValueMeaning (s.cells x).hasValue (s.cells x).user x) s)
      (calcTyped tab call x s) := by
  unfold calcTyped
  refine (started_outcome h hs hv).bind ?_
  intro s₂ hstart
  dsimp only
  generalize (s₂.set x fun c => { c with curr := emptyValue (tab.type x) }) = s₃ at hstart ⊢
  refine (calcNewval_tri (.inl h.bad) h.write (fun y hy => h.answers y (mem_reads_defaults hy))
    (fun hC ht => h.modules hC (.inl ht)) hty hstart.keeps hstart.valid hstart.block).bind ?_
  rintro ⟨newval, s₄⟩ ⟨hp₄, hk₄, hm₄⟩
  dsimp only at hp₄ hk₄ hm₄ ⊢
  have hlater₄ : Later tab P x s₃ s₄ := .of_kept hk₄ hp₄ hstart.valid
  have hchange : ValueChange fun c => { c with curr := newval } := fun c => ⟨_, rfl⟩
  have hlater₅ : Later tab P x s₄ (s₄.set x fun c => { c with curr := newval }) :=
    .set hchange h.own hp₄
  have hcurr₅ : ((s₄.set x fun c => { c with curr := newval }).cells x).curr = newval := by
    rw [set_self]
  generalize (s₄.set x fun c => { c with curr := newval }) = s₅ at hlater₅ hcurr₅ ⊢
  have hlater : Later tab P x s₃ s₅ := hlater₄.trans hlater₅
  have htri : C → ∃ tri, newval = ⟨(emptyValue (tab.type x)).val, tri⟩ ∧
      (tab.triMeaning (s₃.cells x).hasValue (s₃.cells x).user x (s₃.cells x).visible
        (s₃.cells x).revDep s₃.modulesVal).run (s₄.view hidden) = some tri := by
    intro hC
    obtain ⟨tri, htri, hnew⟩ := Option.bind_eq_some_iff.mp (hm₄ hC)
    cases hnew
    exact ⟨tri, rfl, htri⟩
  refine (calcChosen_outcome h hlater.keeps (hlater.kept.valid x hstart.valid) hcurr₅ ?_).bind ?_
  · intro hC
    obtain ⟨tri, rfl, -⟩ := htri hC
    rfl
  rintro s₆ ⟨hp₆, hk₆, hc₆⟩
  have hrange : symValidateRange tab call x s₆ = .ok s₆ := by
    unfold symValidateRange
    rcases hty with ht | ht <;> rw [ht]
  rw [hrange]
  have hkept : Kept tab {x} s s₆ := hstart.kept.trans (hlater.kept.trans hk₆)
  have hblocks : C → ∀ c, x ∈ tab.values c → (s₃.cells c).valid = true :=
    fun hC c hc => (hstart.block hC c ((tab.values_iff c x).mp hc)).1
  have hlocated : C → Located tab hidden s₆ x := fun hC =>
    (hlater.trans (hc₆ hC).1).located (h.inside hC).1 (hstart.located hC) (hblocks hC)
  refine .ok ⟨hp₆, hkept, fun hC _ => hlocated hC, fun hC => ?_⟩
  obtain ⟨tri, rfl, hknown⟩ := htri hC
  obtain ⟨hlater₆, hchosen⟩ := hc₆ hC
  have hall : Later tab P x s₃ s₆ := hlater.trans hlater₆
  replace hlocated := hlocated hC
  have hbelow : Contained (s₄.view hidden) (s₆.view hidden) :=
    (hlater₅.kept.trans hk₆).below (Set.singleton_subset_iff.mpr (h.inside hC).1)
  have hbelow₃ : Contained (s₃.view hidden) (s₆.view hidden) :=
    hall.kept.below (Set.singleton_subset_iff.mpr (h.inside hC).1)
  have hmod := fun ht => h.modules hC (.inl ht)
  obtain ⟨modulesVal, hmodules, heq⟩ := modulesMeaning_run hmod hp₆
  -- `modules_val` is what it was when the value was looked for
  have hsame : tab.type x = .tristate → s₃.modulesVal = modulesVal := by
    intro ht
    obtain ⟨v, hv, hm⟩ := hmod ht s₃ hstart.keeps
    obtain ⟨v', hv', hm'⟩ := hmod ht s₆ hp₆
    rw [hbelow₃ _ v hv] at hv'
    cases hv'
    rw [heq ht, ← hm, hm']
  have hselect : (tab.selectMeaning x).run (s₆.view hidden) = some (s₃.cells x).revDep := by
    unfold Symbols.selectMeaning
    split
    · next hvalue =>
      rw [h.unselected hC hvalue s₃ hstart.keeps]
      rfl
    · next hvalue =>
      rw [hlocated.revDep (by simpa using hvalue), hall.deps.2]
  have htri₆ := (tab.triMeaning _ _ x _ _ _).mono _ _ hbelow _ hknown
  rw [triMeaning_modules hsame, ← hall.visible (hblocks hC), (hstart.kept.user x).1,
    (hstart.kept.user x).2] at htri₆
  have huser₅ := ((hstart.kept.trans hlater.kept).user x).2
  rw [huser₅] at hchosen
  unfold Symbols.triValueMeaning
  simp only [Ask.run_bind, hmodules, hlocated.visible, hselect, htri₆, hchosen,
    Option.bind_some]

theorem calcTyped_text (hb : tab.type x ≠ .boolean) (ht : tab.type x ≠ .tristate) {s : State}
    (hs : P s) (hv : (s.cells x).valid = true) :
    Outcome E (Calculated tab P hidden C x
        (tab.textValueMeaning (s.cells x).hasValue (s.cells x).user x) s)
      (calcTyped tab call x s) := by
  unfold calcTyped
  refine (started_outcome h hs hv).bind ?_
  intro s₂ hstart
  dsimp only
  generalize (s₂.set x fun c => { c with curr := emptyValue (tab.type x) }) = s₃ at hstart ⊢
  have hblock : ¬tab.IsBlock x := fun hblock => hblock.2.elim hb ht
  have htext := calcText_outcome (.inl h.bad) h.write
    (fun y hy => h.answers y (mem_reads_defaults hy)) hblock hstart.keeps
  rw [calcNewval_eq hb ht, bind_assoc]
  refine htext.bind ?_
  rintro ⟨val, s₄⟩ ⟨hp₄, hk₄, hm₄⟩
  dsimp only at hp₄ hk₄ hm₄ ⊢
  rw [pure_bind]
  dsimp only
  have hlater₄ : Later tab P x s₃ s₄ := .of_kept hk₄ hp₄ hstart.valid
  have hchange : ValueChange fun c => { c with curr := ⟨val, .no⟩ } := fun c => ⟨_, rfl⟩
  have hlater₅ : Later tab P x s₄ (s₄.set x fun c => { c with curr := ⟨val, .no⟩ }) :=
    .set hchange h.own hp₄
  have hcurr₅ : ((s₄.set x fun c => { c with curr := ⟨val, .no⟩ }).cells x).curr = ⟨val, .no⟩ := by
    rw [set_self]
  generalize (s₄.set x fun c => { c with curr := ⟨val, .no⟩ }) = s₅ at hlater₅ hcurr₅ ⊢
  have hlater : Later tab P x s₃ s₅ := hlater₄.trans hlater₅
  -- only a block that is "y" has a choice
  have hchosen : calcChosen tab call x ⟨val, .no⟩ s₅ = .ok s₅ := by
    unfold calcChosen
    exact if_neg fun hyes => nomatch hyes.2
  rw [hchosen]
  refine (symValidateRange_outcome (.inl h.bad)
    (fun y hy => h.answers y (mem_reads_ranges hy)) (.inl h.bad) h.own
    (fun hC => (h.inside hC).1) hlater.keeps (hlater.kept.valid x hstart.valid)
    fun _ => .inl h.bad).imp ?_
  intro s₆ hranged
  have hall : Later tab P x s₃ s₆ := hlater.trans hranged.later
  have hblocks : C → ∀ c, x ∈ tab.values c → (s₃.cells c).valid = true :=
    fun hC c hc => (hstart.block hC c ((tab.values_iff c x).mp hc)).1
  have hlocated := fun hC => hall.located (h.inside hC).1 (hstart.located hC) (hblocks hC)
  refine ⟨hall.keeps, hstart.kept.trans hall.kept, fun hC _ => hlocated hC, fun hC => ?_⟩
  have hbelow : Contained (s₄.view hidden) (s₆.view hidden) :=
    (hlater₅.kept.trans hranged.later.kept).below (Set.singleton_subset_iff.mpr (h.inside hC).1)
  have htext₆ := (tab.textMeaning _ _ x _).mono _ _ hbelow _ (hm₄ hC)
  rw [← hall.visible (hblocks hC), (hstart.kept.user x).1, (hstart.kept.user x).2] at htext₆
  have hrange₆ := hranged.val hC
  have htri₆ : (s₆.cells x).curr.tri = .no := by rw [hranged.tri, hcurr₅]
  rw [hcurr₅] at hrange₆
  unfold Symbols.textValueMeaning
  simp only [Ask.run_bind, (hlocated hC).visible, htext₆, hrange₆, Option.bind_some, Ask.run_pure]
  rw [← htri₆]

/-- The part of `sym_calc_value` behind the test of the type. -/
theorem calcTyped_outcome (hno : tab.type x ≠ .unknown ∧ tab.type x ≠ .other) {s : State}
    (hs : P s) (hv : (s.cells x).valid = true) :
    Outcome E (Calculated tab P hidden C x
        (tab.valueMeaning (s.cells x).hasValue (s.cells x).user x) s)
      (calcTyped tab call x s) := by
  have htri := fun hty => calcTyped_tri h hty hs hv
  have htext := fun hb ht => calcTyped_text h hb ht hs hv
  unfold Symbols.valueMeaning
  cases hty : tab.type x with
  | unknown => exact absurd hty hno.1
  | other => exact absurd hty hno.2
  | boolean => exact htri (.inl hty)
  | tristate => exact htri (.inr hty)
  | _ => exact htext (by rw [hty]; nofun) (by rw [hty]; nofun)

end

/-! ## The whole call -/

/-- The symbol that is called for becomes valid: what the calculation of it keeps is kept. -/
theorem Kept.of_marked {s s' : State} (hx : (s.cells x).valid = false)
    (hk : Kept tab {x} (s.set x fun c => { c with valid := true }) s')
    (hx' : (s'.cells x).valid = true) : Kept tab ∅ s s' := by
  have hother : ∀ y, y ≠ x → (s.set x fun c => { c with valid := true }).cells y = s.cells y :=
    fun y hy => set_of_ne s _ hy
  have hne : ∀ y, (s.cells y).valid = true → y ≠ x := by
    rintro y hy rfl
    rw [hx] at hy
    cases hy
  refine ⟨fun y hy => ?_, fun y _ hy => ?_, fun y _ hy => ?_, fun y _ => ?_, fun y => ?_⟩
  · refine hk.valid y ?_
    rw [hother y (hne y hy)]
    exact hy
  · have h := hk.curr y (hne y hy)
    rw [hother y (hne y hy)] at h
    exact h hy
  · have h := hk.deps y (hne y hy)
    rw [hother y (hne y hy)] at h
    exact h hy
  · by_cases hy : y = x
    · -- `x` was not valid, so that its visibility may be new
      subst hy
      exact .inr (.inl ⟨hx, hx'⟩)
    · have h := hk.visible y hy
      rw [hother y hy] at h
      refine h.imp id fun h => h.imp id ?_
      rintro ⟨c, hyc, hc⟩
      refine ⟨c, hyc, .inr ?_⟩
      by_cases hcx : c = x
      · rw [hcx, hx]
      · rw [hother c hcx] at hc
        exact hc.resolve_left hcx
  · have h := hk.user y
    by_cases hy : y = x
    · subst hy
      rw [set_self] at h
      exact h
    · rw [hother y hy] at h
      exact h

theorem writeValues_flagged (s : State) : Flagged s (writeValues tab x s) := by
  unfold writeValues
  split
  · refine ⟨fun y => ?_, rfl⟩
    dsimp only
    split
    · exact ⟨true, rfl⟩
    · exact ⟨_, rfl⟩
  · exact ⟨fun y => ⟨_, rfl⟩, rfl⟩

theorem Flagged.trans {s₁ s₂ s₃ : State} (h : Flagged s₁ s₂) (h' : Flagged s₂ s₃) :
    Flagged s₁ s₃ := by
  refine ⟨fun y => ?_, h'.modules.trans h.modules⟩
  obtain ⟨w, hw⟩ := h.cells y
  obtain ⟨w', hw'⟩ := h'.cells y
  exact ⟨w', by rw [hw', hw]⟩

/-- What follows on the value: flags, and `modules_val`. -/
structure Ended (tab : Symbols) (x : Symbol) (oldval : SymbolValue) (s s' : State) : Prop where
  cells : ∀ y, ∃ w, s'.cells y = { s.cells y with write := w }
  others : x ≠ tab.modules → s'.modulesVal = s.modulesVal
  modules : x = tab.modules → tab.type x ≠ .unknown ∧ tab.type x ≠ .other →
    s'.modulesVal = if oldval = (s.cells x).curr then s.modulesVal else (s.cells x).curr.tri

theorem finishValue_ended (oldval : SymbolValue) (s : State) :
    Ended tab x oldval s (finishValue tab x oldval s) := by
  have hauto : ∀ s₁ : State, Flagged s₁ (if (tab.entry x).auto = true then
      s₁.set x fun c => { c with write := false } else s₁) := by
    intro s₁
    split
    · exact write_flagged s₁ x false
    · exact ⟨fun y => ⟨_, rfl⟩, rfl⟩
  have hflags : ∀ s₁, Flagged s₁ (if (tab.entry x).auto = true then
      (writeValues tab x s₁).set x fun c => { c with write := false }
      else writeValues tab x s₁) := fun s₁ => (writeValues_flagged s₁).trans (hauto _)
  unfold finishValue
  by_cases hm : oldval ≠ (s.cells x).curr ∧ x = tab.modules
  · rw [if_pos hm]
    refine ⟨(hflags _).cells, fun hx => absurd hm.2 hx, fun _ _ => (hflags _).modules.trans ?_⟩
    rw [if_neg hm.1]
  · rw [if_neg hm]
    refine ⟨(hflags _).cells, fun _ => (hflags _).modules, fun hx _ => (hflags _).modules.trans ?_⟩
    rw [if_pos (not_not.mp fun hold => hm ⟨hold, hx⟩)]

/-- `sym_calc_value` of a symbol that has not been valid. -/
theorem calcValue_outcome (h : Ready tab call E P hidden C x) {s : State}
    (hs : P (s.set x fun c => { c with valid := true })) :
    Outcome E (fun s' => ∃ s₁, Calculated tab P hidden C x
        (tab.valueMeaning (s.cells x).hasValue (s.cells x).user x)
        (s.set x fun c => { c with valid := true }) s₁ ∧ Ended tab x (s.cells x).curr s₁ s')
      (calcValue tab call x s) := by
  have hsame : ((s.set x fun c => { c with valid := true }).cells x).hasValue =
      (s.cells x).hasValue ∧
      ((s.set x fun c => { c with valid := true }).cells x).user = (s.cells x).user := by
    rw [set_self]
    exact ⟨rfl, rfl⟩
  have hv : ((s.set x fun c => { c with valid := true }).cells x).valid = true := by
    rw [set_self]
  unfold calcValue
  dsimp only
  generalize (s.set x fun c => { c with valid := true }) = s₀ at hs hsame hv ⊢
  have htyped := fun hno => calcTyped_outcome h hno hs hv
  rw [hsame.1, hsame.2] at htyped
  -- a symbol without a type has its name for a value
  have hnone : tab.type x = .unknown ∨ tab.type x = .other →
      Outcome E (fun s' => ∃ s₁, Calculated tab P hidden C x
        (tab.valueMeaning (s.cells x).hasValue (s.cells x).user x) s₀ s₁ ∧
          Ended tab x (s.cells x).curr s₁ s')
        (.ok (s₀.set x fun c => { c with curr := ⟨x.name, .no⟩ })) := by
    intro hty
    have hchange : ValueChange fun c => { c with curr := ⟨x.name, .no⟩ } := fun c => ⟨_, rfl⟩
    have hown : OwnChange tab x fun c => { c with curr := ⟨x.name, .no⟩ } := hchange.own x
    refine .ok ⟨_, ⟨h.own s₀ _ hown hs, hown.kept s₀, fun _ hno => (hty.elim hno.1 hno.2).elim,
      fun _ => ?_⟩, fun y => ⟨_, rfl⟩, fun _ => rfl, fun _ hno => (hty.elim hno.1 hno.2).elim⟩
    rw [set_self]
    unfold Symbols.valueMeaning
    rcases hty with ht | ht <;> rw [ht] <;> rfl
  have hend : tab.type x ≠ .unknown ∧ tab.type x ≠ .other →
      Outcome E (fun s' => ∃ s₁, Calculated tab P hidden C x
        (tab.valueMeaning (s.cells x).hasValue (s.cells x).user x) s₀ s₁ ∧
          Ended tab x (s.cells x).curr s₁ s')
        (calcTyped tab call x s₀ >>= fun s₁ => .ok (finishValue tab x (s.cells x).curr s₁)) := by
    intro hno
    refine (htyped hno).bind ?_
    intro s₁ hcalc
    exact .ok ⟨s₁, hcalc, finishValue_ended _ s₁⟩
  cases hty : tab.type x with
  | unknown => exact hnone (.inl hty)
  | other => exact hnone (.inr hty)
  | _ => exact hend (by rw [hty]; exact ⟨nofun, nofun⟩)

/-- The call as it is seen from outside. -/
theorem Calculated.kept_of_marked {m : Known SymbolValue} {oldval : SymbolValue} {s s₁ s' : State}
    (hx : (s.cells x).valid = false)
    (h : Calculated tab P hidden C x m (s.set x fun c => { c with valid := true }) s₁)
    (hend : Ended tab x oldval s₁ s') : Kept tab ∅ s s' ∧ (s'.cells x).valid = true := by
  have hv : (s₁.cells x).valid = true := h.kept.valid x (by rw [set_self])
  have hflag : Flagged s₁ { s' with modulesVal := s₁.modulesVal } := ⟨hend.cells, rfl⟩
  have hk : Kept tab ∅ s₁ { s' with modulesVal := s₁.modulesVal } := hflag.kept
  have hkept := (h.kept.of_marked hx hv).trans hk
  exact ⟨⟨hkept.valid, hkept.curr, hkept.deps, hkept.visible, hkept.user⟩, hk.valid x hv⟩

end

/-! ## Every call returns -/

/-- The symbols on a list that are not valid. -/
def State.invalid (univ : List Symbol) (s : State) : Nat := univ.countP fun y => !(s.cells y).valid

theorem invalid_mono {univ : List Symbol} {s s' : State}
    (h : ∀ y, (s.cells y).valid = true → (s'.cells y).valid = true) :
    s'.invalid univ ≤ s.invalid univ := by
  apply List.countP_mono_left
  intro y _ hy
  by_contra hv
  rw [h y (by simpa using hv)] at hy
  cases hy

/-- A symbol that becomes valid. -/
theorem invalid_marked {univ : List Symbol} {x : Symbol} {s s' : State} (hx : x ∈ univ)
    (hno : (s.cells x).valid = false) (hyes : (s'.cells x).valid = true)
    (h : ∀ y, (s.cells y).valid = true → (s'.cells y).valid = true) :
    s'.invalid univ < s.invalid univ := by
  obtain ⟨before, after, rfl⟩ := List.append_of_mem hx
  have hb : s'.invalid before ≤ s.invalid before := invalid_mono h
  have ha : s'.invalid after ≤ s.invalid after := invalid_mono h
  unfold State.invalid at hb ha ⊢
  simp only [List.countP_append, List.countP_cons, hno, hyes]
  simp
  omega

/-- A call that may use more levels than there are symbols to calculate does not run out of them,
whatever the symbols depend on. -/
theorem symCalcValue_outcome {tab : Symbols} {univ : List Symbol}
    (hclosed : ∀ y ∈ univ, ∀ z ∈ tab.reads y, z ∈ univ) (n : Nat) {x : Symbol} (hx : x ∈ univ)
    {s : State} (hn : s.invalid univ < n) :
    Outcome (· ≠ .fuel) (fun s' => Kept tab ∅ s s' ∧ (s'.cells x).valid = true)
      (symCalcValue tab n x s) := by
  induction n generalizing x s with
  | zero => cases hn
  | succ n ih =>
    unfold symCalcValue
    by_cases hv : (s.cells x).valid = true
    · rw [if_pos hv]
      exact .ok ⟨.refl s, hv⟩
    rw [if_neg hv]
    have hno : (s.cells x).valid = false := by simpa using hv
    generalize hmark : (s.set x fun c => { c with valid := true }) = s₀
    have hv₀ : (s₀.cells x).valid = true := by rw [← hmark, set_self]
    -- the mark makes up for the level
    have hs₀ : s₀.invalid univ < n := by
      have h := invalid_marked hx hno hv₀ fun y hy => by
        by_cases hyx : y = x
        · rw [hyx, hv₀]
        · rw [← hmark, set_of_ne s _ hyx, hy]
      omega
    have hanswers : ∀ y ∈ univ, ∀ hidden, Answers tab (symCalcValue tab n) (· ≠ .fuel)
        (State.invalid univ · < n) hidden False y := by
      intro y hy hidden
      refine ⟨False.elim, fun s hs => (ih hy hs).imp ?_⟩
      rintro s' ⟨hk, hy'⟩
      exact ⟨(invalid_mono hk.valid).trans_lt hs, hk, hy', .inl nofun⟩
    have hvalue : ∀ v, Unowned tab (State.invalid univ · < n) v := by
      intro v s f hf hs
      refine (invalid_mono fun y hy => ?_).trans_lt hs
      rwa [set_valid hf.valid]
    have hready : Ready tab (symCalcValue tab n) (· ≠ .fuel) (State.invalid univ · < n) ∅ False
        x := by
      refine ⟨nofun, fun s s' hf hs => ?_, hvalue x, fun v _ => hvalue v,
        fun y hy => hanswers y (hclosed x hx y hy) ∅, fun v hm y hy => hanswers y ?_ _, False.elim,
        False.elim, False.elim, False.elim, False.elim, False.elim, False.elim, False.elim⟩
      · refine (invalid_mono fun y hy => ?_).trans_lt hs
        obtain ⟨w, hw⟩ := hf.cells y
        rw [hw, hy]
      · -- a prompt of a value may ask for the block itself
        by_cases hyx : y = x
        · exact hyx ▸ hx
        · exact hclosed x hx y (mem_reads_of_value hm hy hyx)
    refine (calcValue_outcome hready (hmark ▸ hs₀)).imp ?_
    rintro s' ⟨s₁, hcalc, hend⟩
    exact hcalc.kept_of_marked hno hend

/-- A call returns, unless a text is missing: the symbol is valid then, and what was valid has kept
its value. Nothing is assumed of the dependencies, which may be on each other in a circle. -/
theorem symCalcValue_returns {tab : Symbols} {univ : List Symbol}
    (hclosed : ∀ y ∈ univ, ∀ z ∈ tab.reads y, z ∈ univ) {n : Nat} {x : Symbol} (hx : x ∈ univ)
    {s : State} (hn : s.invalid univ < n) :
    symCalcValue tab n x s = .error .badText ∨
      ∃ s', symCalcValue tab n x s = .ok s' ∧ (s'.cells x).valid = true ∧
        ∀ y, (s.cells y).valid = true →
          (s'.cells y).valid = true ∧ (s'.cells y).curr = (s.cells y).curr := by
  obtain ⟨hok, herror⟩ := symCalcValue_outcome hclosed n hx hn
  cases hcall : symCalcValue tab n x s with
  | error e =>
    cases e with
    | fuel => exact absurd rfl (herror .fuel hcall)
    | badText => exact .inl rfl
  | ok s' =>
    obtain ⟨hk, hv⟩ := hok s' hcall
    exact .inr ⟨s', rfl, hv, fun y hy => ⟨hk.valid y hy, hk.curr y (Set.notMem_empty y) hy⟩⟩

/-- Two symbols with a prompt that depends on the other one. -/
def circle : List Symbol := [.config (ascii "A"), .config (ascii "B")]

def circular : Symbols where
  entry x :=
    if x = .config (ascii "A") then
      { noEntry with type := .boolean, prompts := [some (.symbol (.config (ascii "B")))] }
    else if x = .config (ascii "B") then
      { noEntry with type := .boolean, prompts := [some (.symbol (.config (ascii "A")))] }
    else noEntry
  modules := .config (ascii "MODULES")
  longBits := 64
  const_entry name := rfl
  values_iff c x := by
    split <;> split <;> (try split) <;> (try split) <;> simp [noEntry]
  values_nodup c := by
    split
    · exact List.nodup_nil
    · split <;> exact List.nodup_nil

/-- No symbol has been calculated, and the user has set none. -/
def State.fresh : State where
  cells _ := ⟨false, false, false, .no, .no, .no, ⟨.null, .no⟩, ⟨.null, .no⟩⟩
  modulesVal := .no

theorem symCalcValue_returns_circular :
    symCalcValue circular 3 (.config (ascii "A")) .fresh = .error .badText ∨
      ∃ s', symCalcValue circular 3 (.config (ascii "A")) .fresh = .ok s' ∧
        (s'.cells (.config (ascii "A"))).valid = true ∧
        ∀ y, (State.fresh.cells y).valid = true →
          (s'.cells y).valid = true ∧ (s'.cells y).curr = (State.fresh.cells y).curr := by
  have hclosed : ∀ y ∈ circle, ∀ z ∈ circular.reads y, z ∈ circle := by decide
  exact symCalcValue_returns hclosed (by decide) (by decide)

end Lichee.Kconfig

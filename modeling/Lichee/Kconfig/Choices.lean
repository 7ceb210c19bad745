import Lichee.Kconfig.Calls
import Mathlib.Data.List.Find
import Mathlib.Data.Set.Insert

/- The choice of a choice block. `sym_calc_choice` looks at the visibilities of the values while
   the block itself is in progress, with "y" for a value; what it finds is what `choiceMeaning`
   says, which supposes that value. -/
namespace Lichee.Kconfig
open Base

section
variable {tab : Symbols} {call : Symbol → State → Except CalcStop State} {E : CalcStop → Prop}
  {P : State → Prop} {hidden : Set Symbol} {C : Prop} {c : Symbol}

/-- The values of a choice block while it is in progress: none is known, and those that are valid
are in progress too. -/
def Pending (tab : Symbols) (P : State → Prop) (hidden : Set Symbol) (c : Symbol) : Prop :=
  ∀ s, P s → ∀ v ∈ tab.values c, (s.cells v).valid = true ↔ v ∈ hidden

theorem values_eq {v c' : Symbol} (hv : v ∈ tab.values c) (hv' : v ∈ tab.values c') : c' = c := by
  have h := (tab.values_iff c v).mp hv
  rw [(tab.values_iff c' v).mp hv'] at h
  exact Option.some.inj h

/-- A call leaves the visibilities of the values. -/
theorem Pending.visible (h : Pending tab P hidden c) {s s' : State} (hs : P s) (hs' : P s')
    (hk : Kept tab ∅ s s') (hc : (s.cells c).valid = true) {v : Symbol} (hv : v ∈ tab.values c) :
    (s'.cells v).visible = (s.cells v).visible := by
  rcases hk.visible v (Set.notMem_empty v) with heq | ⟨hno, hyes⟩ | ⟨c', hv', hown | hno⟩
  · exact heq
  · rw [(h s hs v hv).mpr ((h s' hs' v hv).mp hyes)] at hno
    cases hno
  · exact absurd hown (Set.notMem_empty c')
  · rw [values_eq hv hv', hc] at hno
    cases hno

/-- While a choice block has its tentative value, it may be supposed to have it. -/
theorem view_tentative {s : State} (hc : (s.cells c).valid = true) (hh : c ∈ hidden)
    (hcurr : (s.cells c).curr = tab.tentative c) :
    s.view (hidden \ {c}) = Function.update (s.view hidden) c (some (tab.tentative c)) := by
  funext y
  by_cases hy : y = c
  · subst hy
    rw [Function.update_self]
    exact view_some.mpr ⟨hc, fun h => h.2 rfl, hcurr⟩
  · rw [Function.update_of_ne hy]
    refine Option.ext fun v => ?_
    rw [view_some, view_some]
    simp [hy]

/-- How visible a value was seen to be. -/
theorem seenAs_map {vs : List Symbol} {f : Symbol → Tristate} {v : Symbol} (hv : v ∈ vs) :
    Symbols.seenAs (vs.map fun v => (v, f v)) v = f v := by
  unfold Symbols.seenAs
  induction vs with
  | nil => cases hv
  | cons w vs ih =>
    rw [List.map_cons, List.lookup_cons]
    by_cases hw : v = w
    · subst hw
      simp
    · have hbeq : (v == w) = false := beq_eq_false_iff_ne.mpr hw
      rw [hbeq]
      exact ih ((List.mem_cons.mp hv).resolve_left hw)

/-! ## The visibilities of the values -/

theorem choicesMeaning_append {r : Symbol → Option SymbolValue} {vs ws : List Symbol}
    {a b : List (Symbol × Tristate)} (ha : (tab.choicesMeaning c vs).run r = some a)
    (hb : (tab.choicesMeaning c ws).run r = some b) :
    (tab.choicesMeaning c (vs ++ ws)).run r = some (a ++ b) := by
  induction vs generalizing a with
  | nil =>
    cases ha
    exact hb
  | cons v vs ih =>
    obtain ⟨tri, htri, hbind⟩ := Option.bind_eq_some_iff.mp ha
    obtain ⟨rest, hrest, hcons⟩ := Option.bind_eq_some_iff.mp hbind
    cases hcons
    rw [List.cons_append, Symbols.choicesMeaning, Ask.run_bind, htri, Option.bind_some,
      Ask.run_bind, ih hrest]
    rfl

/-- What a look at the values `vs` leaves. -/
structure Looked (tab : Symbols) (P : State → Prop) (hidden : Set Symbol) (c : Symbol)
    (vs : List Symbol) (s s' : State) : Prop where
  later : Later tab P c s s'
  curr : (s'.cells c).curr = (s.cells c).curr
  others : ∀ v ∈ tab.values c, v ∉ vs → (s'.cells v).visible = (s.cells v).visible
  known : (tab.choicesMeaning c vs).run (s'.view hidden) =
    some (vs.map fun v => (v, (s'.cells v).visible))

section
variable (hchoice : E .badText ∨ tab.ChoiceTyped)
  (hprompts : ∀ v ∈ tab.values c, ∀ y ∈ promptSymbols (tab.entry v).prompts,
    Answers tab call E P (hidden \ {c}) C y)
  (hmod : C → ∀ v ∈ tab.values c, tab.type v = .tristate → KnowsModules tab P hidden)
  (hown : ∀ v ∈ tab.values c, Unowned tab P v) (hpending : C → Pending tab P hidden c)
  (hc : C → c ∈ hidden ∧ c ∉ tab.values c)
include hchoice hprompts hmod hown hpending hc

/-- A look at one value. -/
theorem symCalcVisibility_value {v : Symbol} (hv : v ∈ tab.values c) {s : State} (hs : P s)
    (hvalid : C → (s.cells c).valid = true) (hcurr : C → (s.cells c).curr = tab.tentative c) :
    Outcome E (fun s' => P s' ∧ Kept tab {c} s s' ∧ (C → Looked tab P hidden c [v] s s'))
      (symCalcVisibility tab call v s) := by
  have hvalue : tab.isChoiceValue v = true := by
    rw [Symbols.isChoiceValue, (tab.values_iff c v).mp hv]
    rfl
  unfold symCalcVisibility
  refine (calcPrompts_refines hchoice .no (hprompts v hv) s hs).bind ?_
  rintro ⟨tri, s₁⟩ ⟨hp₁, hk₁, hm₁⟩
  dsimp only at hp₁ hk₁ hm₁ ⊢
  rw [if_pos hvalue]
  generalize hvis : tab.promptTri s₁.modulesVal v tri = vis
  have hf : OwnChange tab v fun c => { c with visible := vis } :=
    ⟨fun _ => rfl, fun _ => rfl, fun _ => rfl, fun _ _ => ⟨rfl, rfl⟩⟩
  have hp₂ := hown v hv _ _ hf hp₁
  -- the change of `v` is one that a calculation of `c` may make
  have hkept : Kept tab {c} s₁ (s₁.set v fun c => { c with visible := vis }) := by
    refine ⟨fun y hy => (set_valid hf.valid y).trans hy, fun y _ _ => ?_, fun y _ _ => ?_,
      fun y _ => ?_, (hf.kept s₁).user⟩ <;> by_cases hy : y = v
    · rw [hy, set_self]
    · rw [set_of_ne s₁ _ hy]
    · rw [hy, set_self]
      exact ⟨rfl, rfl⟩
    · rw [set_of_ne s₁ _ hy]
      exact ⟨rfl, rfl⟩
    · exact .inr (.inr ⟨c, hy ▸ hv, .inl rfl⟩)
    · exact .inl (by rw [set_of_ne s₁ _ hy])
  refine .ok ⟨hp₂, (hk₁.mono (Set.empty_subset _)).trans hkept, fun hC => ?_⟩
  replace hvalid := hvalid hC
  obtain ⟨hh, hnot⟩ := hc hC
  have hne : c ≠ v := fun heq => hnot (heq ▸ hv)
  have hvisible := fun w hw => (hpending hC).visible hs hp₁ hk₁ hvalid (v := w) hw
  have hcurr₁ := hk₁.curr c (Set.notMem_empty c) hvalid
  have hlater : Later tab P c s₁ (s₁.set v fun c => { c with visible := vis }) :=
    ⟨hp₂, hkept, fun _ => by rw [set_of_ne s₁ _ hne], by rw [set_of_ne s₁ _ hne]; exact ⟨rfl, rfl⟩⟩
  refine ⟨(Later.of_kept hk₁ hp₁ hvalid).trans hlater, ?_, fun w hw hwv => ?_, ?_⟩
  · rw [set_of_ne s₁ _ hne, hcurr₁]
  · rw [List.mem_singleton] at hwv
    rw [set_of_ne s₁ _ hwv, hvisible w hw]
  · have hnone : s₁.view hidden v = none := by
      rw [view_none]
      exact fun h => ((hpending hC) s₁ hp₁ v hv).mp h
    have hmod' : tab.type v = .tristate → KnowsModules tab P (hidden \ {c}) := by
      intro ht s' hs'
      obtain ⟨w, hw, hwm⟩ := hmod hC v hv ht s' hs'
      refine ⟨w, ?_, hwm⟩
      rw [view_some] at hw ⊢
      exact ⟨hw.1, fun h => hw.2.1 h.1, hw.2.2⟩
    have hknown := visibleMeaning_run hmod' hp₁ (hm₁ hC)
    rw [view_tentative (hk₁.valid c hvalid) hh (hcurr₁.trans (hcurr hC)), hvis] at hknown
    rw [set_view hf.valid hnone, List.map_singleton, set_self]
    show ((Ask.assuming c (tab.tentative c) (tab.visibleMeaning v)).run _).bind _ = _
    rw [Ask.assuming, hknown]
    rfl

/-- A look at some of the values. -/
theorem calcVisibilities_outcome {vs : List Symbol} (hvs : ∀ v ∈ vs, v ∈ tab.values c)
    (hnodup : vs.Nodup) {s : State} (hs : P s) (hvalid : C → (s.cells c).valid = true)
    (hcurr : C → (s.cells c).curr = tab.tentative c) :
    Outcome E (fun s' => P s' ∧ Kept tab {c} s s' ∧ (C → Looked tab P hidden c vs s s'))
      (calcVisibilities tab call vs s) := by
  induction vs generalizing s with
  | nil =>
    exact .ok ⟨hs, .refl s, fun _ => ⟨.refl hs, rfl, fun _ _ _ => rfl, rfl⟩⟩
  | cons v vs ih =>
    have hv := hvs v List.mem_cons_self
    have hrest := fun w hw => hvs w (List.mem_cons_of_mem v hw)
    obtain ⟨hnot, hnodup⟩ := List.nodup_cons.mp hnodup
    refine (symCalcVisibility_value hchoice hprompts hmod hown hpending hc hv hs hvalid hcurr).bind
      ?_
    rintro s₁ ⟨hp₁, hk₁, hl₁⟩
    refine (ih hrest hnodup hp₁ (fun hC => (hl₁ hC).later.kept.valid c (hvalid hC))
      fun hC => (hl₁ hC).curr.trans (hcurr hC)).imp ?_
    rintro s₂ ⟨hp₂, hk₂, hl₂⟩
    refine ⟨hp₂, hk₁.trans hk₂, fun hC => ?_⟩
    have h₁ := hl₁ hC
    have h₂ := hl₂ hC
    refine ⟨h₁.later.trans h₂.later, h₂.curr.trans h₁.curr, fun w hw hwvs => ?_, ?_⟩
    · rw [List.mem_cons, not_or] at hwvs
      rw [h₂.others w hw hwvs.2]
      exact h₁.others w hw fun h => hwvs.1 (List.mem_singleton.mp h)
    · have hbelow : Contained (s₁.view hidden) (s₂.view hidden) :=
        h₂.later.kept.below (Set.singleton_subset_iff.mpr (hc hC).1)
      have hsame := h₂.others v hv hnot
      have hone := (tab.choicesMeaning c [v]).mono _ _ hbelow _ h₁.known
      rw [List.map_cons, hsame]
      exact choicesMeaning_append hone h₂.known

end

/-! ## The choice -/

/-- The defaults of a choice block name its values. -/
def DefaultsNamed (tab : Symbols) (c : Symbol) : Prop :=
  ∀ d ∈ (tab.entry c).defaults, ∃ v ∈ tab.values c, d.expr = .symbol v

/-- What the user chose is a value of the choice block, or nothing. -/
def UserChooses (tab : Symbols) (P : State → Prop) (c : Symbol) : Prop :=
  ∀ s, P s → (s.cells c).user.val = .null ∨ ∃ v ∈ tab.values c, (s.cells c).user.val = .symbol v

/-- The visibilities that were seen are those that the values have. -/
def AsSeen (tab : Symbols) (c : Symbol) (seen : List (Symbol × Tristate)) (s : State) : Prop :=
  ∀ v ∈ tab.values c, (s.cells v).visible = Symbols.seenAs seen v

section
variable (hchoice : E .badText ∨ tab.ChoiceTyped)
  (hdefaults : ∀ d ∈ (tab.entry c).defaults, ∀ y ∈ depSymbols d.visible,
    Answers tab call E P hidden C y)
  (hpending : C → Pending tab P hidden c)

theorem userChoice_outcome (huser : E .badText ∨ UserChooses tab P c)
    (hin : C → UserChooses tab P c) {seen : List (Symbol × Tristate)} {s : State} (hs : P s)
    (hseen : C → AsSeen tab c seen s) :
    Outcome E (fun o => C → o = Symbols.userMeaning seen (s.cells c).user.val)
      (userChoice c s) := by
  unfold userChoice Symbols.userMeaning
  cases hval : (s.cells c).user.val with
  | null => exact .ok fun _ => rfl
  | symbol v =>
    refine .ok fun hC => ?_
    dsimp only
    rcases hin hC s hs with hnull | ⟨w, hw, heq⟩
    · rw [hval] at hnull
      cases hnull
    · rw [hval] at heq
      cases heq
      rw [hseen hC v hw]
  | text t =>
    rcases huser with hbad | huser
    · exact .error hbad
    · rcases huser s hs with hnull | ⟨w, -, heq⟩
      · rw [hval] at hnull
        cases hnull
      · rw [hval] at heq
        cases heq

include hchoice hpending in
theorem visibleDefault_outcome {seen : List (Symbol × Tristate)} {ds : List Default}
    (hds : ∀ d ∈ ds, ∀ y ∈ depSymbols d.visible, Answers tab call E P hidden C y)
    (hnamed : E .badText ∨ ∀ d ∈ ds, ∃ v ∈ tab.values c, d.expr = .symbol v)
    (hin : C → ∀ d ∈ ds, ∃ v ∈ tab.values c, d.expr = .symbol v) {s : State} (hs : P s)
    (hvalid : C → (s.cells c).valid = true) (hseen : C → AsSeen tab c seen s) :
    Outcome E (Means tab P hidden C s (tab.visibleDefaultMeaning seen ds))
      (visibleDefault tab call ds s) := by
  induction ds generalizing s with
  | nil => exact outcome_pure hs
  | cons d ds ih =>
    refine outcome_bind (calcDep_refines hchoice (hds d List.mem_cons_self) s hs)
      fun tri s₁ hm => ?_
    have hvalid₁ : C → (s₁.cells c).valid = true := fun hC => hm.2.1.valid c (hvalid hC)
    -- the condition is calculated without the values of the block being seen anew
    have hseen₁ : C → AsSeen tab c seen s₁ := by
      intro hC v hv
      rw [(hpending hC).visible hs hm.1 hm.2.1 (hvalid hC) hv]
      exact hseen hC v hv
    have hrest := ih (fun d' hd' => hds d' (List.mem_cons_of_mem d hd'))
      (hnamed.imp id fun h d' hd' => h d' (List.mem_cons_of_mem d hd'))
      (fun hC d' hd' => hin hC d' (List.mem_cons_of_mem d hd')) hm.1 hvalid₁ hseen₁
    have hmember := fun hC => hin hC d List.mem_cons_self
    dsimp only
    split
    · exact hrest
    · cases he : d.expr with
      | symbol v =>
        have hsame : C → (s₁.cells v).visible = Symbols.seenAs seen v := by
          intro hC
          obtain ⟨w, hw, heq⟩ := hmember hC
          rw [he] at heq
          cases heq
          exact hseen₁ hC v hw
        dsimp only
        by_cases hvis : (s₁.cells v).visible = .no
        · rw [if_pos hvis]
          refine hrest.imp fun q hq => hq.congr fun hC => ?_
          rw [if_pos ((hsame hC).symm.trans hvis)]
        · rw [if_neg hvis]
          refine .ok ((Means.refl hm.1).congr fun hC => ?_)
          rw [if_neg fun h => hvis ((hsame hC).trans h)]
      | _ =>
        rcases hnamed with hbad | hnamed
        · exact .error hbad
        · obtain ⟨w, -, heq⟩ := hnamed d List.mem_cons_self
          rw [he] at heq
          cases heq

include hchoice hdefaults hpending in
theorem symChoiceDefault_outcome {seen : List (Symbol × Tristate)}
    (hnamed : E .badText ∨ DefaultsNamed tab c) (hin : C → DefaultsNamed tab c) {s : State}
    (hs : P s) (hvalid : C → (s.cells c).valid = true) (hseen : C → AsSeen tab c seen s) :
    Outcome E (Means tab P hidden C s (do
      match ← tab.visibleDefaultMeaning seen (tab.entry c).defaults with
      | some v => return some v
      | none => return (tab.values c).find? fun v => Symbols.seenAs seen v ≠ .no))
      (symChoiceDefault tab call c s) := by
  unfold symChoiceDefault
  refine outcome_bind (visibleDefault_outcome hchoice hpending hdefaults hnamed hin hs hvalid hseen)
    fun o s₁ hm => ?_
  cases o with
  | some v => exact outcome_pure hm.1
  | none =>
    have hfind : C → (tab.values c).find? (fun v => Symbols.seenAs seen v ≠ .no) =
        (tab.values c).find? fun v => (s₁.cells v).visible ≠ .no := by
      intro hC
      refine List.find?_congr fun v hv => ?_
      rw [(hpending hC).visible hs hm.1 hm.2.1 (hvalid hC) hv, hseen hC v hv]
    refine .ok ((Means.refl hm.1).congr fun hC => ?_)
    dsimp only
    rw [hfind hC]

/-- What `sym_calc_choice` leaves: the value of the choice block is the one that its values mean. -/
structure Chosen (tab : Symbols) (P : State → Prop) (hidden : Set Symbol) (c : Symbol)
    (s s' : State) : Prop where
  later : Later tab P c s s'
  value : (tab.choiceMeaning (s.cells c).user c).run (s'.view hidden) = some (s'.cells c).curr

/-- The value that `sym_calc_choice` has found is stored. -/
theorem chosen_set {s s₁ : State} {f : Cell → Cell} {v : SymbolValue} (hown : Unowned tab P c)
    (hh : c ∈ hidden) (hl : Later tab P c s s₁) (hf : f (s₁.cells c) = { s₁.cells c with curr := v })
    (hm : (tab.choiceMeaning (s.cells c).user c).run (s₁.view hidden) = some v) :
    Chosen tab P hidden c s (s₁.set c f) := by
  have hvalue : ValueChange fun c => { c with curr := v } := fun c => ⟨v, rfl⟩
  have heq : s₁.set c f = s₁.set c fun c => { c with curr := v } := by
    unfold State.set
    rw [hf]
  rw [heq]
  refine ⟨hl.trans (.set hvalue hown hl.keeps), ?_⟩
  rw [set_self, set_view hvalue.valid (view_none.mpr fun _ => hh)]
  exact hm

theorem symCalcChoice_outcome (hchoice : E .badText ∨ tab.ChoiceTyped)
    (hprompts : ∀ v ∈ tab.values c, ∀ y ∈ promptSymbols (tab.entry v).prompts,
      Answers tab call E P (hidden \ {c}) C y)
    (hdefaults : ∀ d ∈ (tab.entry c).defaults, ∀ y ∈ depSymbols d.visible,
      Answers tab call E P hidden C y)
    (hmod : C → ∀ v ∈ tab.values c, tab.type v = .tristate → KnowsModules tab P hidden)
    (hown : Unowned tab P c) (hvalues : ∀ v ∈ tab.values c, Unowned tab P v)
    (hpending : C → Pending tab P hidden c) (hc : C → c ∈ hidden ∧ c ∉ tab.values c)
    (hnamed : E .badText ∨ DefaultsNamed tab c) (hin : C → DefaultsNamed tab c)
    (huser : E .badText ∨ UserChooses tab P c) (huserin : C → UserChooses tab P c)
    {s : State} (hs : P s) (hvalid : C → (s.cells c).valid = true)
    (hcurr : C → (s.cells c).curr = tab.tentative c) :
    Outcome E (fun s' => P s' ∧ Kept tab {c} s s' ∧ (C → Chosen tab P hidden c s s'))
      (symCalcChoice tab call c s) := by
  unfold symCalcChoice
  refine (calcVisibilities_outcome hchoice hprompts hmod hvalues hpending hc (fun _ => id)
    (tab.values_nodup c) hs hvalid hcurr).bind ?_
  rintro s₁ ⟨hp₁, hk₁, hl₁⟩
  generalize hseen : ((tab.values c).map fun v => (v, (s₁.cells v).visible)) = seen
  have hasSeen : C → AsSeen tab c seen s₁ := by
    intro _ v hv
    rw [← hseen, seenAs_map hv]
  have hknown : C → (tab.choicesMeaning c (tab.values c)).run (s₁.view hidden) = some seen := by
    intro hC
    rw [(hl₁ hC).known, hseen]
  have hvalid₁ : C → (s₁.cells c).valid = true := fun hC =>
    (hl₁ hC).later.kept.valid c (hvalid hC)
  have hcurr₁ : C → (s₁.cells c).curr = tab.tentative c := fun hC =>
    (hl₁ hC).curr.trans (hcurr hC)
  -- the values have been seen; the user's choice comes before the defaults
  refine (userChoice_outcome huser huserin hp₁ hasSeen).bind ?_
  intro o ho
  have hmeans : C → Symbols.userMeaning seen (s.cells c).user.val = o := by
    intro hC
    rw [ho hC, ((hl₁ hC).later.kept.user c).2]
  have hchange : ∀ v : Symbol,
      ValueChange fun c => { c with curr := { c.curr with val := .symbol v } } :=
    fun v c => ⟨_, rfl⟩
  cases o with
  | some v =>
    have hf : OwnChange tab c _ := (hchange v).own c
    refine .ok ⟨hown _ _ hf hp₁, hk₁.trans (hf.kept s₁), fun hC => ?_⟩
    refine chosen_set (v := Symbols.chosenValue (some v)) hown (hc hC).1 (hl₁ hC).later ?_ ?_
    · rw [hcurr₁ hC]
      rfl
    · rw [Symbols.choiceMeaning, Ask.run_bind, hknown hC, Option.bind_some, hmeans hC]
      rfl
  | none =>
    -- without it, a default or the first value there is to see
    refine (symChoiceDefault_outcome hchoice hdefaults hpending hnamed hin hp₁ hvalid₁
      hasSeen).bind ?_
    rintro ⟨o, s₂⟩ ⟨hp₂, hk₂, hm₂⟩
    dsimp only at hp₂ hk₂ hm₂ ⊢
    have hkept₂ := hk₁.trans (hk₂.mono (Set.empty_subset {c}))
    have hl₂ : C → Later tab P c s s₂ := fun hC =>
      (hl₁ hC).later.trans (.of_kept hk₂ hp₂ (hvalid₁ hC))
    have hcurr₂ : C → (s₂.cells c).curr = tab.tentative c := fun hC =>
      (hk₂.curr c (Set.notMem_empty c) (hvalid₁ hC)).trans (hcurr₁ hC)
    have hvalue : C → (tab.choiceMeaning (s.cells c).user c).run (s₂.view hidden) =
        some (Symbols.chosenValue o) := by
      intro hC
      have hknown₂ := (tab.choicesMeaning c (tab.values c)).mono _ _
        (hk₂.below (Set.empty_subset hidden)) _ (hknown hC)
      rw [Symbols.choiceMeaning, Ask.run_bind, hknown₂, Option.bind_some, hmeans hC]
      obtain ⟨d, hd, hrest⟩ := Option.bind_eq_some_iff.mp (hm₂ hC)
      dsimp only
      rw [Ask.run_bind, hd, Option.bind_some]
      cases d <;> cases hrest <;> rfl
    cases o with
    | some v =>
      have hf : OwnChange tab c _ := (hchange v).own c
      refine .ok ⟨hown _ _ hf hp₂, hkept₂.trans (hf.kept s₂), fun hC => ?_⟩
      refine chosen_set hown (hc hC).1 (hl₂ hC) ?_ (hvalue hC)
      rw [hcurr₂ hC]
      rfl
    | none =>
      have hno : ValueChange fun c => { c with curr := ⟨.null, .no⟩ } := fun c => ⟨_, rfl⟩
      have hf : OwnChange tab c _ := hno.own c
      refine .ok ⟨hown _ _ hf hp₂, hkept₂.trans (hf.kept s₂), fun hC => ?_⟩
      exact chosen_set hown (hc hC).1 (hl₂ hC) rfl (hvalue hC)

end

end

end Lichee.Kconfig

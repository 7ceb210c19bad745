import Lichee.Kconfig.Coherence

/- The order of the calls does not matter. What a value means asks for the symbols that the symbol
   depends on and for no others (`valueMeaning_reads`), so that two coherent states in which the
   user has set the same agree on every symbol that is valid in both. -/
namespace Lichee.Kconfig
open Base

/-! ## What a meaning asks for -/

section
variable {tab : Symbols} {S : Set Symbol}

theorem exprMeaning_in {e : Expr} (hS : ∀ y ∈ e.symbols, y ∈ S) :
    Ask.AsksIn S (tab.exprMeaning e) := by
  induction e with
  | symbol x => exact (Ask.AsksIn.key (hS x (List.mem_singleton_self x))).bind fun v => .pure _
  | not e ih => exact (ih hS).bind fun val => .pure _
  | two type e1 e2 ih1 ih2 =>
    refine (ih1 fun y hy => hS y (List.mem_append_left _ hy)).bind fun val1 => ?_
    exact (ih2 fun y hy => hS y (List.mem_append_right _ hy)).bind fun val2 => .pure _
  | comp type x y =>
    refine (Ask.AsksIn.key (hS x List.mem_cons_self)).bind fun v => ?_
    exact (Ask.AsksIn.key (hS y (List.mem_cons_of_mem x List.mem_cons_self))).bind fun w => .pure _

theorem depMeaning_in {e : Option Expr} (hS : ∀ y ∈ depSymbols e, y ∈ S) :
    Ask.AsksIn S (tab.depMeaning e) := by
  cases e with
  | none => exact .pure _
  | some e => exact exprMeaning_in hS

theorem promptsMeaning_in {ps : List (Option Expr)} {tri : Tristate}
    (hS : ∀ y ∈ promptSymbols ps, y ∈ S) : Ask.AsksIn S (tab.promptsMeaning ps tri) := by
  induction ps generalizing tri with
  | nil => exact .pure _
  | cons p ps ih =>
    refine (depMeaning_in fun y hy => hS y (List.mem_append_left _ hy)).bind fun v => ?_
    exact ih fun y hy => hS y (List.mem_append_right _ hy)

theorem modulesMeaning_in {x : Symbol} (hS : tab.type x = .tristate → tab.modules ∈ S) :
    Ask.AsksIn S (tab.modulesMeaning x) := by
  unfold Symbols.modulesMeaning
  split
  · next ht => exact (Ask.AsksIn.key (hS ht)).bind fun v => .pure _
  · exact .pure _

theorem visibleMeaning_in {x : Symbol} (hS : ∀ y ∈ promptSymbols (tab.entry x).prompts, y ∈ S)
    (hmod : tab.type x = .tristate → tab.modules ∈ S) : Ask.AsksIn S (tab.visibleMeaning x) :=
  (modulesMeaning_in hmod).bind fun _ => (promptsMeaning_in hS).bind fun _ => .pure _

theorem defaultMeaning_in {ds : List Default} (hS : ∀ d ∈ ds, ∀ y ∈ depSymbols d.visible, y ∈ S) :
    Ask.AsksIn S (tab.defaultMeaning ds) := by
  induction ds with
  | nil => exact .pure _
  | cons d ds ih =>
    refine (depMeaning_in (hS d List.mem_cons_self)).bind fun tri => ?_
    split
    · exact ih fun d' hd' => hS d' (List.mem_cons_of_mem d hd')
    · exact .pure _

/-- The default that is found is one of the list. -/
theorem defaultMeaning_mem {ds : List Default} {r : Symbol → Option SymbolValue}
    {o : Option (Default × Tristate)} (h : (tab.defaultMeaning ds).run r = some o) :
    ∀ dt, o = some dt → dt.1 ∈ ds := by
  rintro dt rfl
  induction ds with
  | nil => cases h
  | cons d ds ih =>
    obtain ⟨tri, -, hrest⟩ := Option.bind_eq_some_iff.mp h
    rw [Ask.run_ite] at hrest
    split at hrest
    · exact List.mem_cons_of_mem d (ih hrest)
    · cases hrest
      exact List.mem_cons_self

theorem rangeMeaning_in {rs : List Range} (hS : ∀ r ∈ rs, ∀ y ∈ depSymbols r.visible, y ∈ S) :
    Ask.AsksIn S (tab.rangeMeaning rs) := by
  induction rs with
  | nil => exact .pure _
  | cons r rs ih =>
    refine (depMeaning_in (hS r List.mem_cons_self)).bind fun tri => ?_
    split
    · exact ih fun r' hr' => hS r' (List.mem_cons_of_mem r hr')
    · exact .pure _

/-- The range that is found is one of the list. -/
theorem rangeMeaning_mem {rs : List Range} {t : Symbol → Option SymbolValue} {o : Option Range}
    (h : (tab.rangeMeaning rs).run t = some o) : ∀ r, o = some r → r ∈ rs := by
  rintro r' rfl
  induction rs with
  | nil => cases h
  | cons r rs ih =>
    obtain ⟨tri, -, hrest⟩ := Option.bind_eq_some_iff.mp h
    rw [Ask.run_ite] at hrest
    split at hrest
    · exact List.mem_cons_of_mem r (ih hrest)
    · cases hrest
      exact List.mem_cons_self

theorem withinMeaning_in {x : Symbol} {hex : Bool} {v : Val}
    (hS : ∀ y ∈ rangeSymbols (tab.entry x).ranges, y ∈ S) :
    Ask.AsksIn S (tab.withinMeaning x hex v) := by
  have hbound : ∀ y ∈ S, Ask.AsksIn S (tab.boundMeaning y hex) := fun y hy =>
    (Ask.AsksIn.key hy).bind fun _ => .pure _
  have hrange : ∀ r ∈ (tab.entry x).ranges, ∀ y ∈ r.low :: r.high :: depSymbols r.visible,
      y ∈ S := fun r hr y hy => hS y (List.mem_flatMap_of_mem hr hy)
  refine (rangeMeaning_in fun r hr y hy => hrange r hr y ?_).bind_of
    (fun r o => rangeMeaning_mem) fun o ho => ?_
  · exact List.mem_cons_of_mem _ (List.mem_cons_of_mem _ hy)
  cases o with
  | none => exact .pure _
  | some r =>
    have hr := hrange r (ho r rfl)
    refine (hbound r.low (hr r.low List.mem_cons_self)).bind fun low => ?_
    split
    · exact .pure _
    · refine (hbound r.high (hr r.high ?_)).bind fun high => .pure _
      exact List.mem_cons_of_mem _ List.mem_cons_self

theorem choicesMeaning_in {c : Symbol} {vs : List Symbol}
    (hS : ∀ v ∈ vs, ∀ y ∈ promptSymbols (tab.entry v).prompts, y = c ∨ y ∈ S)
    (hmod : ∀ v ∈ vs, tab.type v = .tristate → tab.modules ∈ S) :
    Ask.AsksIn S (tab.choicesMeaning c vs) := by
  induction vs with
  | nil => exact .pure _
  | cons v vs ih =>
    have hvisible : Ask.AsksIn (insert c S) (tab.visibleMeaning v) :=
      visibleMeaning_in (hS v List.mem_cons_self)
        fun ht => Set.mem_insert_of_mem c (hmod v List.mem_cons_self ht)
    refine hvisible.assuming.bind fun tri => ?_
    refine (ih (fun w hw => hS w (List.mem_cons_of_mem v hw)) fun w hw =>
      hmod w (List.mem_cons_of_mem v hw)).bind fun rest => .pure _

theorem visibleDefaultMeaning_in {seen : List (Symbol × Tristate)} {ds : List Default}
    (hS : ∀ d ∈ ds, ∀ y ∈ depSymbols d.visible, y ∈ S) :
    Ask.AsksIn S (tab.visibleDefaultMeaning seen ds) := by
  induction ds with
  | nil => exact .pure _
  | cons d ds ih =>
    have hrest := ih fun d' hd' => hS d' (List.mem_cons_of_mem d hd')
    refine (depMeaning_in (hS d List.mem_cons_self)).bind fun tri => ?_
    split
    · exact hrest
    · split
      · split
        · exact hrest
        · exact .pure _
      · exact hrest

end

section
variable {tab : Symbols} {rank : Symbol → Nat} (h : Ordered tab rank) {x : Symbol}

theorem choiceMeaning_in (user : SymbolValue) (c : Symbol) :
    Ask.AsksIn {y | y ∈ tab.reads c} (tab.choiceMeaning user c) := by
  have hdefaults : ∀ d ∈ (tab.entry c).defaults, ∀ y ∈ depSymbols d.visible, y ∈ tab.reads c :=
    fun d hd y hy => mem_reads_defaults (List.mem_flatMap_of_mem hd (List.mem_append_left _ hy))
  refine (choicesMeaning_in (fun v hv y hy => ?_) fun v hv ht => ?_).bind fun seen => ?_
  · by_cases hyc : y = c
    · exact .inl hyc
    · exact .inr (mem_reads_of_value hv hy hyc)
  · exact mem_reads_modules (.inr ⟨v, hv, ht⟩)
  · split
    · exact .pure _
    · refine (visibleDefaultMeaning_in hdefaults).bind fun o => ?_
      cases o <;> exact .pure _

/-- What the defaults of a symbol that is no choice block ask for. -/
theorem defaultTriMeaning_in : Ask.AsksIn {y | y ∈ tab.reads x} (tab.defaultTriMeaning x) := by
  unfold Symbols.defaultTriMeaning
  split
  · exact .pure _
  · next hno =>
    refine (defaultMeaning_in fun d hd y hy => ?_).bind_of (fun r o => defaultMeaning_mem)
      fun o ho => ?_
    · exact mem_reads_defaults (List.mem_flatMap_of_mem hd (List.mem_append_left _ hy))
    cases o with
    | none => exact .pure _
    | some dt =>
      refine (exprMeaning_in fun y hy => ?_).bind fun v => .pure _
      refine mem_reads_defaults (List.mem_flatMap_of_mem (ho dt rfl) (List.mem_append_right _ ?_))
      rwa [if_neg fun hb => hno hb.1]

theorem selectedMeaning_in {has : Bool} {user : SymbolValue}
    {visible revDep modulesVal : Tristate} :
    Ask.AsksIn {y | y ∈ tab.reads x}
      (tab.selectedMeaning has user x visible revDep modulesVal) := by
  have hown : Ask.AsksIn {y | y ∈ tab.reads x} (tab.ownMeaning has user x visible) := by
    unfold Symbols.ownMeaning
    split
    · exact defaultTriMeaning_in
    · exact .pure _
  exact hown.bind fun tri => .pure _

theorem selectMeaning_in : Ask.AsksIn {y | y ∈ tab.reads x} (tab.selectMeaning x) := by
  unfold Symbols.selectMeaning
  split
  · exact .pure _
  · next hno =>
    have hsymbols : ∀ y ∈ depSymbols (tab.entry x).revDep, y ∈ tab.reads x := by
      intro y hy
      apply mem_reads_dependencies
      rw [Symbols.dependencySymbols, if_neg hno]
      exact List.mem_append_right _ hy
    refine (modulesMeaning_in fun ht => mem_reads_modules (.inl ht)).bind fun modulesVal => ?_
    refine Ask.AsksIn.bind ?_ fun tri => .pure _
    cases hrev : (tab.entry x).revDep with
    | none => exact .pure _
    | some e => exact exprMeaning_in fun y hy => hsymbols y (hrev ▸ hy)

include h in
theorem triMeaning_in {has : Bool} {user : SymbolValue} {visible revDep modulesVal : Tristate} :
    Ask.AsksIn {y | y ∈ tab.reads x} (tab.triMeaning has user x visible revDep modulesVal) := by
  unfold Symbols.triMeaning
  cases hc : (tab.entry x).choice with
  | none => exact selectedMeaning_in
  | some c =>
    dsimp only
    split
    · have hmem : c ∈ {y | y ∈ tab.reads x} :=
        mem_reads_prompts (h.under c x ((tab.values_iff c x).mpr hc)).1
      exact (Ask.AsksIn.key hmem).bind fun v => .pure _
    · exact selectedMeaning_in

theorem visible_reads : Ask.AsksIn {y | y ∈ tab.reads x} (tab.visibleMeaning x) :=
  visibleMeaning_in (fun _ => mem_reads_prompts) fun ht => mem_reads_modules (.inl ht)

include h in
theorem triValueMeaning_in (has : Bool) (user : SymbolValue) :
    Ask.AsksIn {y | y ∈ tab.reads x} (tab.triValueMeaning has user x) := by
  refine (modulesMeaning_in fun ht => mem_reads_modules (.inl ht)).bind fun modulesVal => ?_
  refine visible_reads.bind fun visible => selectMeaning_in.bind fun revDep => ?_
  refine (triMeaning_in h).bind fun tri => ?_
  unfold Symbols.chosenMeaning
  split
  · exact choiceMeaning_in user x
  · exact .pure _

theorem textValueMeaning_in (hb : ¬tab.IsBlock x) (has : Bool) (user : SymbolValue) :
    Ask.AsksIn {y | y ∈ tab.reads x} (tab.textValueMeaning has user x) := by
  have htext : ∀ visible, Ask.AsksIn {y | y ∈ tab.reads x}
      (tab.textMeaning has user x visible) := by
    intro visible
    unfold Symbols.textMeaning
    split
    · refine (defaultMeaning_in fun d hd y hy => ?_).bind_of (fun r o => defaultMeaning_mem)
        fun o ho => ?_
      · exact mem_reads_defaults (List.mem_flatMap_of_mem hd (List.mem_append_left _ hy))
      split
      · next ds p tri =>
        have hmem : ds ∈ {y | y ∈ tab.reads x} := by
          refine mem_reads_defaults (List.mem_flatMap_of_mem (ho _ rfl) ?_)
          refine List.mem_append_right _ ?_
          rw [if_neg hb]
          exact List.mem_singleton_self ds
        exact (Ask.AsksIn.key hmem).bind fun v => .pure _
      · exact .pure _
    · exact .pure _
  have hranged : ∀ val, Ask.AsksIn {y | y ∈ tab.reads x} (tab.rangedMeaning x val) := by
    intro val
    unfold Symbols.rangedMeaning
    split
    · exact withinMeaning_in fun _ => mem_reads_ranges
    · exact withinMeaning_in fun _ => mem_reads_ranges
    · exact .pure _
  exact visible_reads.bind fun visible => (htext visible).bind fun val =>
    (hranged val).bind fun val => .pure _

include h in
/-- The value of a symbol asks for what the symbol depends on. -/
theorem valueMeaning_reads (has : Bool) (user : SymbolValue) :
    Ask.AsksIn {y | y ∈ tab.reads x} (tab.valueMeaning has user x) := by
  unfold Symbols.valueMeaning
  cases hty : tab.type x with
  | unknown => exact .pure _
  | other => exact .pure _
  | boolean => exact triValueMeaning_in h has user
  | tristate => exact triValueMeaning_in h has user
  | _ =>
    refine textValueMeaning_in (fun hb => ?_) has user
    rcases hb.2 with ht | ht <;> rw [hty] at ht <;> cases ht

end

/-! ## The order of the calls -/

/-- What the user has set is the same. -/
def SameUser (s t : State) : Prop :=
  ∀ y, (s.cells y).hasValue = (t.cells y).hasValue ∧ (s.cells y).user = (t.cells y).user

/-- Calls one after the other. -/
def calcAll (tab : Symbols) (n : Nat) : List Symbol → State → Except CalcStop State
  | [], s => .ok s
  | x :: xs, s => do
    let s ← symCalcValue tab n x s
    calcAll tab n xs s

/-- What a symbol has for a value when the user has set what `s` says. -/
def Symbols.meaningIn (tab : Symbols) (s : State) (y : Symbol) : Known SymbolValue :=
  match fixedValue y with
  | some v => pure v
  | none => tab.valueMeaning (s.cells y).hasValue (s.cells y).user y

section
variable {tab : Symbols} {rank : Symbol → Nat} (h : Ordered tab rank)
include h

theorem meaningIn_reads (s : State) (y : Symbol) :
    Ask.AsksIn {z | z ∈ tab.reads y} (tab.meaningIn s y) := by
  unfold Symbols.meaningIn
  split
  · exact .pure _
  · exact valueMeaning_reads h _ _

omit h in
/-- In a coherent state every valid symbol has it. -/
theorem meaningIn_run {s t : State} (ht : Coherent tab t) {y : Symbol} {v : SymbolValue}
    (hy : t.view ∅ y = some v)
    (hsame : (s.cells y).hasValue = (t.cells y).hasValue ∧ (s.cells y).user = (t.cells y).user) :
    (tab.meaningIn s y).run (t.view ∅) = some v := by
  unfold Symbols.meaningIn
  split
  · next w hw =>
    rw [← (view_some.mp hy).2.2, (ht.sound.fixed y w hw).2]
    rfl
  · next hno =>
    rw [hsame.1, hsame.2]
    exact ht.values y v hy hno

/-- Coherent states in which the user has set the same for the symbols of `D`, which depend on none
but each other, agree on those of them that are valid in both. -/
theorem coherent_agree {s t : State} (hs : Coherent tab s) (ht : Coherent tab t) {D : Set Symbol}
    (hD : ∀ y ∈ D, ∀ z ∈ tab.reads y, z ∈ D)
    (huser : ∀ y ∈ D, (s.cells y).hasValue = (t.cells y).hasValue ∧
      (s.cells y).user = (t.cells y).user) :
    Ask.Agree (Ask.within D (s.view ∅)) (Ask.within D (t.view ∅)) := by
  have hbody : ∀ y, Ask.AsksIn {z | rank z < rank y} (tab.meaningIn s y) := fun y r r' hr =>
    meaningIn_reads h s y r r' fun z hz => hr z (h.lower y z hz)
  -- what is known outside of `D` plays no part in it
  have hwithin : ∀ y ∈ D, ∀ r : Symbol → Option SymbolValue,
      (tab.meaningIn s y).run (Ask.within D r) = (tab.meaningIn s y).run r := fun y hy r =>
    meaningIn_reads h s y _ _ fun z hz => Ask.within_of_mem (hD y hy z hz)
  refine Ask.settled_agree hbody (fun y v hy => ?_) fun y v hy => ?_
  · obtain ⟨hyD, hy⟩ := Ask.within_some.mp hy
    rw [hwithin y hyD]
    exact meaningIn_run hs hy ⟨rfl, rfl⟩
  · obtain ⟨hyD, hy⟩ := Ask.within_some.mp hy
    rw [hwithin y hyD]
    exact meaningIn_run ht hy (huser y hyD)

/-- Any calls keep what is coherent, and the symbols that were called for are valid. -/
theorem calcAll_coherent {n : Nat} {xs : List Symbol} {s s' : State} (hs : Coherent tab s)
    (hcalls : calcAll tab n xs s = .ok s') :
    Coherent tab s' ∧ Kept tab ∅ s s' ∧ ∀ x ∈ xs, (s'.cells x).valid = true := by
  induction xs generalizing s with
  | nil =>
    cases hcalls
    exact ⟨hs, .refl _, fun x hx => absurd hx List.not_mem_nil⟩
  | cons x xs ih =>
    obtain ⟨s₁, hcall, hrest⟩ := bind_eq_ok.mp hcalls
    obtain ⟨hs₁, hk₁, hv₁⟩ := symCalcValue_coherent h hs hcall
    obtain ⟨hs', hk', hv'⟩ := ih hs₁ hrest
    refine ⟨hs', hk₁.trans hk', fun y hy => ?_⟩
    rcases List.mem_cons.mp hy with rfl | hy
    · exact hk'.valid y hv₁
    · exact hv' y hy

end

/-- `sym_clear_all_valid`, and calls for the symbols on a list. -/
def recalculate (tab : Symbols) (n : Nat) (xs : List Symbol) (s : State) :
    Except CalcStop State := do
  let s ← symClearAllValid tab n s
  calcAll tab n xs s

/-- Every valid value is what the others make of it then, and the symbols called for are valid. -/
theorem recalculate_coherent {tab : Symbols} {rank : Symbol → Nat} (h : Ordered tab rank)
    (hmodules : tab.type tab.modules = .boolean ∨ tab.type tab.modules = .tristate)
    {s s' : State} (hs : Sound tab s) {n : Nat} {xs : List Symbol}
    (hxs : recalculate tab n xs s = .ok s') :
    Coherent tab s' ∧ SameUser s' s ∧ ∀ x ∈ xs, (s'.cells x).valid = true := by
  obtain ⟨s₁, hclear, hcalls⟩ := bind_eq_ok.mp hxs
  obtain ⟨hs₁, hsame⟩ := symClearAllValid_coherent h hmodules hs hclear
  obtain ⟨hs', hk, hv⟩ := calcAll_coherent h hs₁ hcalls
  exact ⟨hs', fun y => ⟨(hk.user y).1.trans (hsame y).1, (hk.user y).2.trans (hsame y).2⟩, hv⟩

/-- The values depend on what the user has set and on nothing else: not on which symbols are
called for and in which order, nor on the values there were. -/
theorem recalculate_order {tab : Symbols} {rank : Symbol → Nat} (h : Ordered tab rank)
    (hmodules : tab.type tab.modules = .boolean ∨ tab.type tab.modules = .tristate)
    {s t s' t' : State} (hs : Sound tab s) (ht : Sound tab t) (huser : SameUser s t) {n k : Nat}
    {xs ys : List Symbol} (hxs : recalculate tab n xs s = .ok s')
    (hys : recalculate tab k ys t = .ok t') :
    Coherent tab s' ∧ SameUser s' s ∧
      ∀ x ∈ xs, (s'.cells x).valid = true ∧ (x ∈ ys → (s'.cells x).curr = (t'.cells x).curr) := by
  obtain ⟨hs', hset, hv⟩ := recalculate_coherent h hmodules hs hxs
  obtain ⟨ht', hset', hv'⟩ := recalculate_coherent h hmodules ht hys
  have hboth : SameUser s' t' := fun y =>
    ⟨(hset y).1.trans ((huser y).1.trans (hset' y).1.symm),
      (hset y).2.trans ((huser y).2.trans (hset' y).2.symm)⟩
  have hagree := coherent_agree h hs' ht' (fun y _ z _ => Set.mem_univ z) fun y _ => hboth y
  refine ⟨hs', hset, fun x hx => ⟨hv x hx, fun hy => hagree x _ _ ?_ ?_⟩⟩
  · exact Ask.within_some.mpr ⟨Set.mem_univ x, view_some.mpr ⟨hv x hx, Set.notMem_empty x, rfl⟩⟩
  · exact Ask.within_some.mpr ⟨Set.mem_univ x, view_some.mpr ⟨hv' x hy, Set.notMem_empty x, rfl⟩⟩

/-! A choice block with two values, of which the user has chosen the first. -/

def blockSymbol : Symbol := .choice 0
def firstValue : Symbol := .config (ascii "V")
def secondValue : Symbol := .config (ascii "W")
def modulesSymbol : Symbol := .config (ascii "MODULES")

def blockEntry (x : Symbol) : Entry :=
  if x = blockSymbol then
    { noEntry with
      type := .boolean, prompts := [none], values := some [firstValue, secondValue] }
  else if x = firstValue ∨ x = secondValue then
    { noEntry with
      type := .boolean, prompts := [some (.symbol blockSymbol)], choice := some blockSymbol }
  else if x = modulesSymbol then { noEntry with type := .boolean, prompts := [none] }
  else noEntry

/-- The symbols that have an entry. -/
theorem blockEntry_cases (x : Symbol) :
    x = blockSymbol ∨ x = firstValue ∨ x = secondValue ∨ x = modulesSymbol ∨
      blockEntry x = noEntry := by
  unfold blockEntry
  split
  · next h => exact .inl h
  · split
    · next h => exact h.elim (.inr ∘ .inl) (.inr ∘ .inr ∘ .inl)
    · split
      · next h => exact .inr (.inr (.inr (.inl h)))
      · exact .inr (.inr (.inr (.inr rfl)))

def oneBlock : Symbols where
  entry := blockEntry
  modules := modulesSymbol
  longBits := 64
  const_entry name := rfl
  values_iff c x := by
    refine ⟨fun hmem => ?_, fun hchoice => ?_⟩
    · rcases blockEntry_cases c with rfl | rfl | rfl | rfl | hc
      · rcases List.mem_cons.mp (show x ∈ [firstValue, secondValue] from hmem) with rfl | hmem
        · rfl
        · cases List.mem_singleton.mp hmem
          rfl
      · exact absurd hmem List.not_mem_nil
      · exact absurd hmem List.not_mem_nil
      · exact absurd hmem List.not_mem_nil
      · rw [hc] at hmem
        exact absurd hmem List.not_mem_nil
    · rcases blockEntry_cases x with rfl | rfl | rfl | rfl | hx
      · cases (show none = some c from hchoice)
      · cases (show some blockSymbol = some c from hchoice)
        decide
      · cases (show some blockSymbol = some c from hchoice)
        decide
      · cases (show none = some c from hchoice)
      · rw [hx] at hchoice
        cases hchoice
  values_nodup c := by
    rcases blockEntry_cases c with rfl | rfl | rfl | rfl | hc
    · decide
    · decide
    · decide
    · decide
    · rw [hc]
      exact List.nodup_nil

def blockRank (x : Symbol) : Nat := if x = firstValue ∨ x = secondValue then 1 else 0

theorem oneBlock_ordered : Ordered oneBlock blockRank := by
  refine ⟨fun x => ?_, fun x hx => ?_, fun c hc d hd => ?_, fun c v hv => ?_⟩
  · rcases blockEntry_cases x with rfl | rfl | rfl | rfl | hx
    · decide
    · decide
    · decide
    · decide
    · have hentry : oneBlock.entry x = noEntry := hx
      have hreads : oneBlock.reads x = [] := by
        simp [Symbols.reads, Symbols.dependencySymbols, Symbols.defaultSymbols,
          Symbols.valueSymbols, Symbols.moduleSymbols, Symbols.values, Symbols.type, hentry,
          noEntry, promptSymbols, depSymbols, rangeSymbols]
      rw [hreads]
      exact fun y hy => absurd hy List.not_mem_nil
  · rcases blockEntry_cases x with rfl | rfl | rfl | rfl | hno
    · exact .inl rfl
    · exact .inl rfl
    · exact .inl rfl
    · exact .inl rfl
    · rw [Symbols.isChoice, show oneBlock.entry x = noEntry from hno] at hx
      cases hx
  · have hnone : (oneBlock.entry c).defaults = [] := by
      rcases blockEntry_cases c with rfl | rfl | rfl | rfl | hno
      · rfl
      · rfl
      · rfl
      · rfl
      · rw [show oneBlock.entry c = noEntry from hno]
        rfl
    rw [hnone] at hd
    exact absurd hd List.not_mem_nil
  · have hchoice := (oneBlock.values_iff c v).mp hv
    rcases blockEntry_cases v with rfl | rfl | rfl | rfl | hno
    · cases (show none = some c from hchoice)
    · cases (show some blockSymbol = some c from hchoice)
      exact ⟨by decide, .inl rfl⟩
    · cases (show some blockSymbol = some c from hchoice)
      exact ⟨by decide, .inl rfl⟩
    · cases (show none = some c from hchoice)
    · rw [show oneBlock.entry v = noEntry from hno] at hchoice
      cases hchoice

/-- The user has chosen the first value. -/
def userState : State where
  cells x :=
    if x = blockSymbol then
      ⟨false, false, true, .no, .no, .no, ⟨.null, .no⟩, ⟨.symbol firstValue, .yes⟩⟩
    else
      match fixedValue x with
      | some v => ⟨true, false, false, .no, .no, .no, v, ⟨.null, .no⟩⟩
      | none => ⟨false, false, false, .no, .no, .no, ⟨.null, .no⟩, ⟨.null, .no⟩⟩
  modulesVal := .no

theorem userState_sound : Sound oneBlock userState := by
  refine ⟨rfl, fun y v hy => ?_, fun v _ => ?_, fun c hc => ?_⟩
  · have hne : y ≠ blockSymbol := by
      rintro rfl
      cases hy
    unfold userState
    dsimp only
    rw [if_neg hne, hy]
    exact ⟨rfl, rfl⟩
  · show (userState.cells v).revDep = .no
    unfold userState
    dsimp only
    split
    · rfl
    · split <;> rfl
  · rcases blockEntry_cases c with rfl | rfl | rfl | rfl | hno
    · exact .inr ⟨firstValue, by decide, rfl⟩
    · cases hc
    · cases hc
    · cases hc
    · rw [Symbols.isChoice, show oneBlock.entry c = noEntry from hno] at hc
      cases hc

theorem recalculate_order_values : ∃ s t,
    recalculate oneBlock 4 [firstValue, secondValue] userState = .ok s ∧
    recalculate oneBlock 4 [secondValue, blockSymbol, firstValue] userState = .ok t ∧
    (s.cells firstValue).curr = (t.cells firstValue).curr ∧
    (s.cells firstValue).curr.tri = .yes ∧ (s.cells secondValue).curr.tri = .no := by
  refine ⟨_, _, rfl, rfl, ?_, rfl, rfl⟩
  have hxs : recalculate oneBlock 4 [firstValue, secondValue] userState = .ok _ := rfl
  have hys : recalculate oneBlock 4 [secondValue, blockSymbol, firstValue] userState = .ok _ := rfl
  have h := recalculate_order oneBlock_ordered (.inl rfl) userState_sound userState_sound
    (fun y => ⟨rfl, rfl⟩) hxs hys
  exact (h.2.2 firstValue (by decide)).2 (by decide)

end Lichee.Kconfig

import Lichee.Core.ParseTestcase
import Lichee.View.Items

/- Whether the two lists hold every testcase. `parse_testcase` counts the sections, the
   windows are as tall as the counts say, and `draw_testcases` inserts the entries of the
   table, the built-in touch testcase excepted.

   A section without a category is counted for no list, but its entry has the category 0 of
   the zeroed slot and goes into the automatic one; and every category other than 0 is
   counted for the manual list, which takes only category 1. `accepted_iff` says how the
   counts have to meet for no item to be refused. -/
namespace Lichee.Core
open Base Script View

/-- `it_data` of `draw_testcases`. -/
def drawData (e : TestcaseBaseInfo) : ItemData where
  name := padTo 32 (cstr e.name)
  displayName := padTo 68 (cstr e.displayName)
  category := e.category
  status := -1
  exdata := zeros 68

/-- `draw_testcases`: the screen, and the ids of the items the view has refused. -/
def drawTestcases : List TestcaseBaseInfo → Screen → Screen × List Int
  | [], s => (s, [])
  | e :: es, s =>
    if strcmp0 (drawData e).name (ascii "tp") then drawTestcases es s
    else
      match dfInsertItem s e.id (drawData e) with
      | some s => drawTestcases es s
      | none => ((drawTestcases es s).1, e.id :: (drawTestcases es s).2)

/-- Every item `draw_testcases` inserts is accepted, on the screen `df_view_init` makes. -/
def Accepted (p : Parsing) (lcd : Bool) (display_name : Option (List UInt8)) : Prop :=
  (drawTestcases p.table (dfViewInit lcd display_name p.totalTestcasesAuto
    p.totalTestcasesManual)).2 = []

namespace SectionKeys

/-- An activated section other than the touch testcase: one with an item. -/
def listed (k : SectionKeys) : Bool := k.active && !k.isTp

/-- A section with an item and without a category. -/
def bare (k : SectionKeys) : Bool := k.listed && k.category.isNone

/-- The touch testcase, counted for the automatic list. -/
def touchAuto (k : SectionKeys) : Bool := k.active && k.isTp && k.category == some 0

end SectionKeys

/-- No section without a category is the first activated one behind an abandoned one. -/
def NoStray : List SectionKeys → Prop
  | [] => True
  | k :: ks =>
    (k.abandoned = true → ∀ n, ks.find? (·.active) = some n → n.bare = false) ∧ NoStray ks

/-- The counts meet: a section with an item has the category 0 or 1 if it has one, and the
sections without a category find the place counted for the touch testcase. -/
structure Sized (ks : List SectionKeys) : Prop where
  known : ∀ k ∈ ks, k.listed = true → ∀ c, k.category = some c → c = 0 ∨ c = 1
  noStray : NoStray ks
  room : ks.countP (·.bare) ≤ ks.countP (·.touchAuto)

/-! ## Drawing -/

/-- The categories of the items drawn for a table. -/
def drawnCategories (es : List TestcaseBaseInfo) : List Int :=
  (es.filter fun e => !strcmp0 (drawData e).name (ascii "tp")).map (·.category)

/-- Nothing is refused exactly when every item has a list and the lists have the room. -/
theorem drawTestcases_accepts (es : List TestcaseBaseInfo) {s : Screen} {a m : Nat}
    (hs : s.HasRoom a m) : (drawTestcases es s).2 = [] ↔
      (∀ c ∈ drawnCategories es, c = 0 ∨ c = 1) ∧ (drawnCategories es).count 0 ≤ a ∧
        (drawnCategories es).count 1 ≤ m := by
  induction es generalizing s a m with
  | nil => simp [drawTestcases, drawnCategories]
  | cons e es ih =>
    -- the touch panel is drawn as no item of the lists
    by_cases htp : strcmp0 (drawData e).name (ascii "tp") = true
    · have hcats : drawnCategories (e :: es) = drawnCategories es := by
        simp [drawnCategories, htp]
      rw [drawTestcases, if_pos htp, hcats]
      exact ih hs
    · have hcats : drawnCategories (e :: es) = e.category :: drawnCategories es := by
        simp [drawnCategories, htp]
      rw [drawTestcases, if_neg htp, hcats]
      have hcat : (drawData e).category = e.category := rfl
      rcases dfInsertItem_cases hs e.id (drawData e) with
        ⟨h0, ha, s', hs', hroom⟩ | ⟨h1, hm, s', hs', hroom⟩ | ⟨hnone, h0, h1⟩
      · rw [hcat] at h0
        rw [hs']
        simp only [ih hroom, h0, List.forall_mem_cons, List.count_cons]
        simp
        omega
      · rw [hcat] at h1
        rw [hs']
        simp only [ih hroom, h1, List.forall_mem_cons, List.count_cons]
        simp
        omega
      · -- refused: the category is unknown, or its list is full
        rw [hcat] at h0 h1
        rw [hnone]
        refine ⟨?_, ?_⟩
        · intro h
          cases h
        · rintro ⟨hknown, hauto, hmanual⟩
          rcases hknown e.category (by simp) with hc | hc
          · rw [hc, List.count_cons_self] at hauto
            exact absurd ⟨hc, by omega⟩ h0
          · rw [hc, List.count_cons_self] at hmanual
            exact absurd ⟨hc, by omega⟩ h1

/-! ## The items of a script -/

/-- The name in an entry is the name of its section. -/
theorem drawn_fill {e : TestcaseBaseInfo} (he : e.name.length = 32) (k : SectionKeys) (j : Nat) :
    strcmp0 (drawData (k.fill e j)).name (ascii "tp") = k.isTp := by
  have hname : (k.fill e j).name = strncpy k.name 32 := by
    show strncpy k.name 32 ++ e.name.drop 32 = _
    rw [List.drop_eq_nil_of_le (by omega), List.append_nil]
  have hcstr : cstr (drawData (k.fill e j)).name = (cstr k.name).take 32 :=
    calc cstr (padTo 32 (cstr (k.fill e j).name)) = cstr (cstr (k.fill e j).name) := cstr_padTo _ _
      _ = cstr (strncpy k.name 32) := by rw [cstr_cstr, hname]
      _ = (cstr k.name).take 32 := cstr_strncpy _ _
  have htp : (cstr k.name).take 32 = cstr (ascii "tp") ↔ cstr k.name = cstr (ascii "tp") := by
    refine ⟨?_, ?_⟩
    · intro h
      have hlen := congrArg List.length h
      have h2 : (cstr (ascii "tp")).length = 2 := by decide
      rw [List.length_take, h2] at hlen
      rwa [List.take_of_length_le (by omega)] at h
    · intro h
      rw [h]
      decide
  rw [SectionKeys.isTp, strcmp0, strcmp0, hcstr, Bool.eq_iff_iff, beq_iff_eq, beq_iff_eq, htp]

theorem fill_name_length {e : TestcaseBaseInfo} (he : e.name.length = 32) (k : SectionKeys)
    (j : Nat) : (k.fill e j).name.length = 32 := by
  show (strncpy k.name 32 ++ e.name.drop 32).length = 32
  rw [List.length_append, strncpy_length, List.length_drop]
  omega

/-- What a section is to the lists: nothing, abandoned, the touch testcase, or an item. -/
inductive Kind (k : SectionKeys) : Prop
  | inactive (h : k.active = false)
  | abandoned (h : k.active = true) (hab : k.abandoned = true) (htp : k.isTp = true)
      (c : Int) (hc : k.category = some c) (hne : c ≠ 0)
  | touch (h : k.active = true) (hab : k.abandoned = false) (htp : k.isTp = true)
  | item (h : k.active = true) (hab : k.abandoned = false) (htp : k.isTp = false)

theorem kind (k : SectionKeys) : Kind k := by
  cases hact : k.active with
  | false => exact .inactive hact
  | true =>
    cases htp : k.isTp with
    | false => exact .item hact (by simp [SectionKeys.abandoned, htp]) htp
    | true =>
      cases hab : k.abandoned with
      | false => exact .touch hact hab htp
      | true =>
        obtain ⟨c, hc, hne⟩ := category_of_abandoned hab
        exact .abandoned hact hab htp c hc hne

/-- The items of a script, with `c` for the category in the slot: the category each section
gives, and the one it finds. -/
def items : List SectionKeys → Int → List (Option Int × Int)
  | [], _ => []
  | k :: ks, c =>
    if k.active then
      if k.abandoned then items ks (k.category.getD c)
      else if k.isTp then items ks 0
      else (k.category, c) :: items ks 0
    else items ks c

/-- The category of the entry. -/
def shown (x : Option Int × Int) : Int := x.1.getD x.2

/-- The category comes from a slot left behind. -/
def stray (x : Option Int × Int) : Bool := x.1.isNone && x.2 != 0

/-- Such a category, and one the manual list takes. -/
def strayOne (x : Option Int × Int) : Bool := x.1.isNone && x.2 == 1

theorem drawnCategories_runKeys (ks : List SectionKeys) {e : TestcaseBaseInfo} (j : Nat)
    (he : e.name.length = 32) :
    drawnCategories (runKeys ks e j) = (items ks e.category).map shown := by
  induction ks generalizing e j with
  | nil => rfl
  | cons k ks ih =>
    rw [runKeys, items]
    split
    · split
      · exact ih j (fill_name_length he k j)
      · have hrest := ih (e := zeroInfo) (j + 1) rfl
        have hdrawn := drawn_fill he k j
        split
        · -- the touch testcase has an entry and no item
          next htp =>
          rw [htp] at hdrawn
          rw [drawnCategories, List.filter_cons_of_neg (by simp [hdrawn])]
          exact hrest
        · next htp =>
          rw [Bool.not_eq_true] at htp
          rw [htp] at hdrawn
          rw [drawnCategories, List.filter_cons_of_pos (by simp [hdrawn]), List.map_cons,
            List.map_cons]
          exact congrArg _ hrest
    · exact ih j he

/-- The categories the items' sections give. -/
theorem items_fst (ks : List SectionKeys) (c : Int) :
    (items ks c).map Prod.fst = (ks.filter (·.listed)).map (·.category) := by
  induction ks generalizing c with
  | nil => rfl
  | cons k ks ih =>
    rw [items]
    cases kind k with
    | inactive h =>
      rw [List.filter_cons_of_neg (by simp [SectionKeys.listed, h])]
      simp only [h, Bool.false_eq_true, if_false, ih]
    | abandoned h hab htp c' hc hne =>
      rw [List.filter_cons_of_neg (by simp [SectionKeys.listed, htp])]
      simp only [h, hab, if_true, ih]
    | touch h hab htp =>
      rw [List.filter_cons_of_neg (by simp [SectionKeys.listed, htp])]
      simp only [h, hab, htp, Bool.false_eq_true, if_true, if_false, ih]
    | item h hab htp =>
      rw [List.filter_cons_of_pos (by simp [SectionKeys.listed, h, htp])]
      simp only [h, hab, htp, Bool.false_eq_true, if_true, if_false, List.map_cons, ih]

/-- No item is a stray when no abandoned section, nor the slot at the start, is followed by
one without a category. -/
theorem no_stray_iff (ks : List SectionKeys) (c : Int) :
    (∀ x ∈ items ks c, stray x = false) ↔
      (c ≠ 0 → ∀ n, ks.find? (·.active) = some n → n.bare = false) ∧ NoStray ks := by
  induction ks generalizing c with
  | nil => simp [items, NoStray]
  | cons k ks ih =>
    rw [items, NoStray]
    cases kind k with
    | inactive h =>
      have hab : k.abandoned = false := by simp [SectionKeys.abandoned, h]
      rw [List.find?_cons_of_neg (by simp [h])]
      simp only [h, hab, Bool.false_eq_true, if_false, false_implies, true_and]
      exact ih c
    | abandoned h hab htp c' hc hne =>
      have hbare : k.bare = false := by simp [SectionKeys.bare, SectionKeys.listed, htp]
      rw [List.find?_cons_of_pos h]
      simp only [h, hab, hc, if_true, Option.getD_some, ih c', Option.some.injEq, forall_eq', hbare,
        implies_true, true_and, ne_eq, hne, not_false_eq_true, forall_const]
    | touch h hab htp =>
      have hbare : k.bare = false := by simp [SectionKeys.bare, SectionKeys.listed, htp]
      rw [List.find?_cons_of_pos h]
      simp only [h, hab, htp, Bool.false_eq_true, if_true, if_false, ih 0, Option.some.injEq,
        forall_eq', hbare, implies_true, true_and, ne_eq, not_true_eq_false, false_implies]
    | item h hab htp =>
      have hbare : k.bare = k.category.isNone := by
        simp [SectionKeys.bare, SectionKeys.listed, h, htp]
      rw [List.find?_cons_of_pos h]
      simp only [h, hab, htp, Bool.false_eq_true, if_true, if_false, List.forall_mem_cons, ih 0,
        Option.some.injEq, forall_eq', hbare, ne_eq, not_true_eq_false, false_implies, true_and]
      apply and_congr_left
      intro _
      cases k.category <;> simp [stray]

/-! ## The counts -/

/-- A count over the items' own categories is one over their sections. -/
theorem items_countP (q : Option Int → Bool) (ks : List SectionKeys) (c : Int) :
    (items ks c).countP (fun x => q x.1) = ks.countP fun k => q k.category && k.listed := by
  have h := congrArg (List.countP q) (items_fst ks c)
  rw [List.countP_map, List.countP_map, List.countP_filter] at h
  exact h

/-- The items in the automatic list are those of category 0 and those without a category, but
for the strays. -/
theorem count_zero (l : List (Option Int × Int)) :
    (l.map shown).count 0 + l.countP stray =
      l.countP (fun x => x.1 == some 0) + l.countP (fun x => x.1.isNone) := by
  induction l with
  | nil => rfl
  | cons x l ih =>
    obtain ⟨o, c⟩ := x
    simp only [List.map_cons, List.count_cons, List.countP_cons]
    cases o with
    | none => by_cases hc : c = 0 <;> simp [shown, stray, hc] <;> omega
    | some d => by_cases hd : d = 0 <;> simp [shown, stray, hd] <;> omega

/-- The items in the manual list are those of category 1, and strays. -/
theorem count_one (l : List (Option Int × Int)) :
    (l.map shown).count 1 =
      l.countP (fun x => x.1 == some 1) + l.countP strayOne := by
  induction l with
  | nil => rfl
  | cons x l ih =>
    obtain ⟨o, c⟩ := x
    simp only [List.map_cons, List.count_cons, List.countP_cons]
    cases o with
    | none => by_cases hc : c = 1 <;> simp [shown, strayOne, hc] <;> omega
    | some d => by_cases hd : d = 1 <;> simp [shown, strayOne, hd] <;> omega

/-- A category other than 0. -/
def notZero : Option Int → Bool
  | some c => c != 0
  | none => false

/-- The counter of the automatic testcases. -/
theorem auto_foldl (ks : List SectionKeys) (p : Parsing) :
    (ks.foldl takeKeys p).totalTestcasesAuto = p.totalTestcasesAuto +
      (ks.countP (fun k => k.category == some 0 && k.listed) + ks.countP (·.touchAuto)) := by
  induction ks generalizing p with
  | nil => rfl
  | cons k ks ih =>
    rw [List.foldl_cons, ih, List.countP_cons, List.countP_cons]
    cases kind k with
    | inactive h =>
      rw [takeKeys_inactive h]
      simp [SectionKeys.listed, SectionKeys.touchAuto, h]
    | abandoned h hab htp c hc hne =>
      rw [takeKeys_abandoned h hab]
      simp [SectionKeys.listed, SectionKeys.touchAuto, hc, hne]
    | touch h hab htp =>
      -- counted as well, though it will have no item
      rw [takeKeys_entry h hab]
      by_cases hc : k.category = some 0 <;>
        simp [SectionKeys.listed, SectionKeys.touchAuto, h, htp, hc]
      omega
    | item h hab htp =>
      rw [takeKeys_entry h hab]
      by_cases hc : k.category = some 0 <;>
        simp [SectionKeys.listed, SectionKeys.touchAuto, h, htp, hc]
      omega

/-- The counter of the manual testcases. -/
theorem manual_foldl (ks : List SectionKeys) (p : Parsing) :
    (ks.foldl takeKeys p).totalTestcasesManual = p.totalTestcasesManual +
      ks.countP (fun k => notZero k.category && k.listed) := by
  induction ks generalizing p with
  | nil => rfl
  | cons k ks ih =>
    have hman : k.manual = notZero k.category := by
      cases hc : k.category <;> simp [SectionKeys.manual, notZero, hc]
    rw [List.foldl_cons, ih, List.countP_cons]
    cases kind k with
    | inactive h =>
      rw [takeKeys_inactive h]
      simp [SectionKeys.listed, h]
    | abandoned h hab htp c hc hne =>
      rw [takeKeys_abandoned h hab]
      simp [SectionKeys.listed, htp]
    | touch h hab htp =>
      have hzero : k.manual = false := by simpa [SectionKeys.abandoned, h, htp] using hab
      rw [takeKeys_entry h hab]
      simp [SectionKeys.listed, htp, hzero]
    | item h hab htp =>
      rw [takeKeys_entry h hab]
      cases hz : k.manual with
      | false =>
        rw [hz] at hman
        simp [SectionKeys.listed, h, htp, ← hman]
      | true =>
        rw [hz] at hman
        simp [SectionKeys.listed, h, htp, ← hman]
        omega

/-- A list takes an item of category 0 or 1, given by its section or by the slot. -/
theorem shown_known (x : Option Int × Int) : shown x = 0 ∨ shown x = 1 ↔
    (∀ c, x.1 = some c → c = 0 ∨ c = 1) ∧ (stray x = true → strayOne x = true) := by
  obtain ⟨o, c⟩ := x
  cases o with
  | some d => simp [shown, stray]
  | none => simp [shown, stray, strayOne, or_iff_not_imp_left]

theorem stray_of_strayOne {x : Option Int × Int} (h : strayOne x = true) : stray x = true := by
  simp only [strayOne, stray, Bool.and_eq_true, beq_iff_eq] at h ⊢
  simp [h.1, h.2]

/-- Where only 0 and 1 are given, the manual counter counts the 1s. -/
theorem countP_notZero {l : List (Option Int × Int)}
    (h : ∀ x ∈ l, ∀ c, x.1 = some c → c = 0 ∨ c = 1) :
    l.countP (fun x => notZero x.1) = l.countP (fun x => x.1 == some 1) := by
  apply List.countP_congr
  intro x hx
  obtain ⟨o, c⟩ := x
  cases o with
  | none => simp [notZero]
  | some d => rcases h _ hx d rfl with rfl | rfl <;> simp [notZero]

/-- A list of items fits the counts exactly when each has a category that is counted for its
list, none is a stray, and those without a category find room. -/
theorem fits_iff (l : List (Option Int × Int)) (t : Nat) :
    ((∀ c ∈ l.map shown, c = 0 ∨ c = 1) ∧
      (l.map shown).count 0 ≤ l.countP (fun x => x.1 == some 0) + t ∧
      (l.map shown).count 1 ≤ l.countP (fun x => notZero x.1)) ↔
    (∀ x ∈ l, ∀ c, x.1 = some c → c = 0 ∨ c = 1) ∧ (∀ x ∈ l, stray x = false) ∧
      l.countP (fun x => x.1.isNone) ≤ t := by
  have hzero := count_zero l
  rw [List.forall_mem_map, count_one l]
  simp only [shown_known]
  refine ⟨?_, ?_⟩
  · rintro ⟨hshown, h0, h1⟩
    have hgiven := fun x hx => (hshown x hx).1
    -- a stray shows 1, which nothing counted
    have hone : l.countP strayOne = 0 := by
      rw [countP_notZero hgiven] at h1
      omega
    have hstray : ∀ x ∈ l, stray x = false := by
      intro x hx
      rw [← Bool.not_eq_true]
      intro hs
      exact List.countP_eq_zero.mp hone x hx ((hshown x hx).2 hs)
    have hnone : l.countP stray = 0 := List.countP_eq_zero.mpr fun x hx => by simp [hstray x hx]
    exact ⟨hgiven, hstray, by omega⟩
  · rintro ⟨hgiven, hstray, hroom⟩
    have hno : ∀ x ∈ l, ¬ stray x = true := fun x hx => by simp [hstray x hx]
    have hnone : l.countP stray = 0 := List.countP_eq_zero.mpr hno
    have hone : l.countP strayOne = 0 :=
      List.countP_eq_zero.mpr fun x hx h => hno x hx (stray_of_strayOne h)
    refine ⟨fun x hx => ⟨hgiven x hx, fun hs => absurd hs (hno x hx)⟩, by omega, ?_⟩
    rw [countP_notZero hgiven, hone]
    omega

/-- What the items give is what their sections give. -/
theorem items_given {ks : List SectionKeys} (c : Int) :
    (∀ x ∈ items ks c, ∀ d, x.1 = some d → d = 0 ∨ d = 1) ↔
      ∀ k ∈ ks, k.listed = true → ∀ d, k.category = some d → d = 0 ∨ d = 1 := by
  have hmem : ∀ o : Option Int, (∃ x ∈ items ks c, x.1 = o) ↔
      ∃ k ∈ ks, k.listed = true ∧ k.category = o := by
    intro o
    have h : o ∈ (items ks c).map Prod.fst ↔ o ∈ (ks.filter (·.listed)).map (·.category) := by
      rw [items_fst]
    simpa [List.mem_map, List.mem_filter, and_assoc] using h
  refine ⟨?_, ?_⟩
  · intro h k hk hl d hd
    obtain ⟨x, hx, hxd⟩ := (hmem (some d)).mpr ⟨k, hk, hl, hd⟩
    exact h x hx d hxd
  · intro h x hx d hd
    obtain ⟨k, hk, hl, hkd⟩ := (hmem (some d)).mp ⟨x, hx, hd⟩
    exact h k hk hl d hkd

/-- Every item is accepted exactly when the counts meet. -/
theorem accepted_iff (s : Attached) (p : Parsing) (hp : parseTestcase s = some p) (lcd : Bool)
    (display_name : Option (List UInt8)) : Accepted p lcd display_name ↔ Sized (sections s) := by
  have hfold := parseTestcase_foldl hp
  have hauto := auto_foldl (sections s) initParsing
  have hmanual := manual_foldl (sections s) initParsing
  rw [← hfold] at hauto hmanual
  have hcats := drawnCategories_runKeys (sections s) (e := zeroInfo) 0 rfl
  rw [← parseTestcase_table hp] at hcats
  have h0 := items_countP (· == some 0) (sections s) 0
  have hnz := items_countP notZero (sections s) 0
  have hbare := items_countP (·.isNone) (sections s) 0
  have hbare' : (sections s).countP (fun k => k.category.isNone && k.listed) =
      (sections s).countP (·.bare) := by
    simp only [SectionKeys.bare, Bool.and_comm]
  have hstray := no_stray_iff (sections s) 0
  have hfits := fits_iff (items (sections s) 0) ((sections s).countP (·.touchAuto))
  rw [items_given, hstray, hbare, hbare', h0, hnz] at hfits
  rw [Accepted, drawTestcases_accepts p.table (dfViewInit_room lcd display_name _ _), hcats,
    hauto, hmanual]
  simp only [initParsing, Nat.zero_add]
  refine hfits.trans ⟨?_, ?_⟩
  · rintro ⟨hknown, ⟨-, hno⟩, hroom⟩
    exact ⟨hknown, hno, hroom⟩
  · rintro ⟨hknown, hno, hroom⟩
    exact ⟨hknown, ⟨fun h => absurd rfl h, hno⟩, hroom⟩

instance (p : Parsing) (lcd : Bool) (display_name : Option (List UInt8)) :
    Decidable (Accepted p lcd display_name) :=
  inferInstanceAs (Decidable (_ = _))

/-- One automatic testcase. -/
def autoText : ScriptBuf where
  text := ascii "[memory]\ndisplay_name=1\nactivated=1\ncategory=0\n"
  next := 0
  rest := [0]

theorem auto_accepted : ∃ s p, Compiled autoText s ∧
    (Accepted p true none ↔ Sized (sections s)) := by
  obtain ⟨s, p, hs, hp, -⟩ := @exists_of_parseText 12 autoText (fun _ => true) (by decide +kernel)
  exact ⟨s, p, hs, accepted_iff s p hp true none⟩

/-- One testcase without a category: an item of the automatic list that was not counted. -/
def bareText : ScriptBuf where
  text := ascii "[memory]\ndisplay_name=1\nactivated=1\n"
  next := 0
  rest := [0]

theorem bare_refused : ∃ s p, Compiled bareText s ∧ parseTestcase s = some p ∧
    ¬ Accepted p true none := by
  obtain ⟨s, p, hs, hp, hcheck⟩ := @exists_of_parseText 12 bareText
    (fun q => !decide (Accepted q.2 true none)) (by decide +kernel)
  exact ⟨s, p, hs, hp, by simpa using hcheck⟩

end Lichee.Core

import Lichee.Core.TestCase
import Mathlib.Algebra.BigOperators.Group.List.Basic
import Mathlib.Tactic.Ring

/- The two result lists of the view (view.h and df_view.c). A list hangs in a window
   whose height was fixed before any item came, and an item goes below those its list
   holds already; what is drawn is left out. -/
namespace Lichee.View
open Base Lichee.Core

def MENU_HEIGHT : Int := 32
def ITEM_HEIGHT : Int := 28

/-- `struct item_data`. The arrays are held with their NULs. -/
structure ItemData where
  name : List UInt8
  displayName : List UInt8
  category : Int
  status : Int
  exdata : List UInt8
  deriving DecidableEq, Repr

/-- The colours of an item: `item_init_bgcolor` and `item_init_fgcolor`, or those for a test
that passed or failed. -/
inductive ItemColor
  | init | ok | fail
  deriving DecidableEq, Repr

/-- `struct df_item_data`, without what only drawing uses. `exdata` is `none` until the first
text is copied there. -/
structure DfItemData where
  id : Int
  name : List UInt8
  displayName : List UInt8
  category : Int
  status : Int
  exdata : Option (List UInt8)
  y : Int
  height : Int
  color : ItemColor
  deriving DecidableEq, Repr

/-- A window, `desc.height` of it, with the list it shows. -/
structure DfWindow where
  height : Int
  tcList : List DfItemData
  deriving DecidableEq, Repr

/-- `auto_window` and `manual_window`. -/
structure Screen where
  auto : DfWindow
  manual : DfWindow
  deriving DecidableEq, Repr

/-- `if (data->exdata[0]) strncpy(df_data->exdata, data->exdata, 64)` -/
def copyExdata (exdata : Option (List UInt8)) (data : ItemData) : Option (List UInt8) :=
  if data.exdata.headD 0 ≠ 0 then some (strncpy data.exdata 64) else exdata

/-- The item `df_insert_item` fills in. -/
def dfItem (id : Int) (data : ItemData) (y : Int) : DfItemData where
  id := id
  name := strncpy data.name 32
  displayName := strncpy data.displayName 64
  category := data.category
  status := data.status
  exdata := copyExdata none data
  y := y
  height := ITEM_HEIGHT
  color := .init

/-- "no more space for item": the item goes below the menu and the items of the list. -/
def DfWindow.insert (w : DfWindow) (id : Int) (data : ItemData) : Option DfWindow :=
  let y := MENU_HEIGHT + (w.tcList.map (·.height)).sum
  if y + ITEM_HEIGHT > w.height then none
  else some { w with tcList := dfItem id data y :: w.tcList }

/-- `df_insert_item`: `none` where it returns -1. -/
def dfInsertItem (s : Screen) (id : Int) (data : ItemData) : Option Screen :=
  if data.category = CATEGORY_AUTO then
    (s.auto.insert id data).map fun w => { s with auto := w }
  else if data.category = CATEGORY_MANUAL then
    (s.manual.insert id data).map fun w => { s with manual := w }
  else none

/-! ## The windows at the start -/

def BUILDIN_TC_ID_TP : Int := -1

/-- "触摸" -/
def TP_DISPLAY_NAME : List UInt8 := [0xe8, 0xa7, 0xa6, 0xe6, 0x91, 0xb8]

/-- The height `auto_window_init` takes, with `get_auto_testcases_number()`. -/
def autoWindowInit (auto : Nat) : DfWindow := ⟨MENU_HEIGHT + ITEM_HEIGHT * auto, []⟩

/-- The height `manual_window_init` takes, with `get_manual_testcases_number()`, and on the LCD
with room for the built-in touch testcase. -/
def manualWindowInit (lcd : Bool) (manual : Nat) : DfWindow :=
  if lcd then ⟨MENU_HEIGHT + ITEM_HEIGHT * (1 + manual), []⟩
  else ⟨MENU_HEIGHT + ITEM_HEIGHT * manual, []⟩

/-- `tp_data` of `buildin_tc_init`, with the display name the script has for it. -/
def tpData (display_name : Option (List UInt8)) : ItemData where
  name := zeros 32
  displayName := padTo 68 (strncpy (display_name.getD TP_DISPLAY_NAME) 64)
  category := CATEGORY_MANUAL
  status := -1
  exdata := zeros 68

/-- The lists when `df_view_init` is through: on the LCD the built-in testcase is inserted. -/
def dfViewInit (lcd : Bool) (display_name : Option (List UInt8)) (auto manual : Nat) : Screen :=
  let s : Screen := ⟨autoWindowInit auto, manualWindowInit lcd manual⟩
  if lcd then (dfInsertItem s BUILDIN_TC_ID_TP (tpData display_name)).getD s else s

/-! ## Room -/

/-- A window with room for `n` more items: its items have the same height each. -/
def DfWindow.HasRoom (w : DfWindow) (n : Nat) : Prop :=
  w.height = MENU_HEIGHT + (w.tcList.map (·.height)).sum + ITEM_HEIGHT * n

theorem autoWindowInit_room (auto : Nat) : (autoWindowInit auto).HasRoom auto := by
  simp [DfWindow.HasRoom, autoWindowInit]

/-- A window without room refuses. -/
theorem DfWindow.insert_full {w : DfWindow} (h : w.HasRoom 0) (id : Int) (data : ItemData) :
    w.insert id data = none := by
  unfold DfWindow.HasRoom at h
  unfold DfWindow.insert
  rw [if_pos]
  unfold ITEM_HEIGHT at *
  omega

/-- Of the room one item takes one place. -/
theorem DfWindow.insert_room {w : DfWindow} {n : Nat} (h : w.HasRoom (n + 1)) (id : Int)
    (data : ItemData) : ∃ w', w.insert id data = some w' ∧ w'.HasRoom n := by
  unfold DfWindow.HasRoom at h
  unfold DfWindow.insert
  rw [if_neg (by unfold ITEM_HEIGHT at *; push_cast at h; omega)]
  refine ⟨_, rfl, ?_⟩
  unfold DfWindow.HasRoom
  simp only [List.map_cons, List.sum_cons, dfItem]
  push_cast at h
  rw [h]
  ring

/-- Both windows, with their room. -/
def Screen.HasRoom (s : Screen) (a m : Nat) : Prop := s.auto.HasRoom a ∧ s.manual.HasRoom m

/-- An item goes where its category sends it, if there is room. -/
theorem dfInsertItem_cases {s : Screen} {a m : Nat} (hs : s.HasRoom a m) (id : Int)
    (data : ItemData) :
    (data.category = 0 ∧ 0 < a ∧
      ∃ s', dfInsertItem s id data = some s' ∧ s'.HasRoom (a - 1) m) ∨
    (data.category = 1 ∧ 0 < m ∧
      ∃ s', dfInsertItem s id data = some s' ∧ s'.HasRoom a (m - 1)) ∨
    (dfInsertItem s id data = none ∧ ¬ (data.category = 0 ∧ 0 < a) ∧
      ¬ (data.category = 1 ∧ 0 < m)) := by
  unfold dfInsertItem CATEGORY_AUTO CATEGORY_MANUAL
  by_cases h0 : data.category = 0
  · rw [if_pos h0]
    cases a with
    | zero =>
      rw [DfWindow.insert_full hs.1]
      exact .inr (.inr ⟨rfl, by simp, by simp [h0]⟩)
    | succ a =>
      obtain ⟨w, hw, hroom⟩ := DfWindow.insert_room hs.1 id data
      rw [hw]
      exact .inl ⟨h0, by omega, _, rfl, hroom, hs.2⟩
  · rw [if_neg h0]
    by_cases h1 : data.category = 1
    · rw [if_pos h1]
      cases m with
      | zero =>
        rw [DfWindow.insert_full hs.2]
        exact .inr (.inr ⟨rfl, by simp [h0], by simp⟩)
      | succ m =>
        obtain ⟨w, hw, hroom⟩ := DfWindow.insert_room hs.2 id data
        rw [hw]
        exact .inr (.inl ⟨h1, by omega, _, rfl, hs.1, hroom⟩)
    · rw [if_neg h1]
      exact .inr (.inr ⟨rfl, by simp [h0], by simp [h1]⟩)

/-- After `df_view_init` there is room for the items counted. -/
theorem dfViewInit_room (lcd : Bool) (display_name : Option (List UInt8)) (auto manual : Nat) :
    (dfViewInit lcd display_name auto manual).HasRoom auto manual := by
  cases lcd with
  | false =>
    refine ⟨autoWindowInit_room auto, ?_⟩
    simp [dfViewInit, manualWindowInit, DfWindow.HasRoom]
  | true =>
    have hm : (manualWindowInit true manual).HasRoom (manual + 1) := by
      simp [DfWindow.HasRoom, manualWindowInit]
      omega
    obtain ⟨w, hw, hroom⟩ := DfWindow.insert_room hm BUILDIN_TC_ID_TP (tpData display_name)
    have hne : ¬ CATEGORY_MANUAL = CATEGORY_AUTO := by decide
    simp only [dfViewInit, dfInsertItem, tpData, if_neg hne, if_true] at hw ⊢
    rw [hw]
    exact ⟨autoWindowInit_room auto, hroom⟩

end Lichee.View

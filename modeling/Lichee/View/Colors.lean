import Mathlib.Tactic.Ring
import Lichee.View.Buttons
import Lichee.View.Items
import Lichee.View.Scale

/- The colours of the view (df_view.c and tp_track.c). Whatever is drawn takes its colour from
   `color_table` by an index, and most indices come from the script. The view checks each one it
   fetches and puts a default in the place of one that is out of range. Two uses are not covered
   by such a check: `tp_track_init` tests the colour it has drawn with so far in place of the
   index it fetched, and the bars of the video window count their index up by one for each eighth
   of the width, rounded down. `colors_valid_iff` says which scripts and widths they leave in
   the table. -/
namespace Lichee.View
open Base Script

/-! ## The table -/

def COLOR_WHITE_IDX : Int := 0
def COLOR_YELLOW_IDX : Int := 1
def COLOR_GREEN_IDX : Int := 2
def COLOR_RED_IDX : Int := 5
def COLOR_BLACK_IDX : Int := 7
def COLOR_BEAUTY_IDX : Int := 8

/-- The entries of `color_table`. -/
def COLORS : Int := 9

def InTable (idx : Int) : Prop := 0 ≤ idx ∧ idx < COLORS

/-! ## The configuration -/

/-- `script_fetch(main_name, sub_name, &value, 1)`: what it returns, and `value`. -/
def fetchInt (s : Attached) (mainName subName : List UInt8) : Option (Int × Int) := do
  let f ← scriptFetch s mainName subName 1
  let w ← word32 f.value
  some (f.ret, toInt w)

/-- A colour of the view: `fallback` where the script gives none, or one that is not between
white and black. -/
def fetchColor (s : Attached) (key : List UInt8) (fallback : Int) : Option Int := do
  let (ret, v) ← fetchInt s (ascii "df_view") key
  some (if ret ≠ 0 ∨ v < COLOR_WHITE_IDX ∨ v > COLOR_BLACK_IDX then fallback else v)

/-- A switch of the script: 0 where the script gives none. -/
def fetchActivated (s : Attached) (mainName : List UInt8) : Option Int := do
  let (ret, v) ← fetchInt s mainName (ascii "activated")
  some (if ret ≠ 0 then 0 else v)

/-- What `df_config_init` sets that decides what is drawn, and in which colour. -/
structure DfConfig where
  tpActivated : Int
  cameraActivated : Int
  itemInitBgcolor : Int
  itemInitFgcolor : Int
  itemOkBgcolor : Int
  itemOkFgcolor : Int
  itemFailBgcolor : Int
  itemFailFgcolor : Int
  deriving DecidableEq, Repr

/-- `df_config_init` -/
def dfConfigInit (s : Attached) : Option DfConfig := do
  let tpActivated ← fetchActivated s (ascii "tp")
  let cameraActivated ← fetchActivated s (ascii "camera")
  let itemInitBgcolor ← fetchColor s (ascii "item_init_bgcolor") COLOR_WHITE_IDX
  let itemInitFgcolor ← fetchColor s (ascii "item_init_fgcolor") COLOR_BLACK_IDX
  let itemOkBgcolor ← fetchColor s (ascii "item_ok_bgcolor") COLOR_WHITE_IDX
  let itemOkFgcolor ← fetchColor s (ascii "item_ok_fgcolor") COLOR_BLUE_IDX
  let itemFailBgcolor ← fetchColor s (ascii "item_fail_bgcolor") COLOR_WHITE_IDX
  let itemFailFgcolor ← fetchColor s (ascii "item_fail_fgcolor") COLOR_RED_IDX
  some ⟨tpActivated, cameraActivated, itemInitBgcolor, itemInitFgcolor, itemOkBgcolor,
    itemOkFgcolor, itemFailBgcolor, itemFailFgcolor⟩

/-! ## The windows -/

/-- `clear_button` and `switch_button`: the colours of the border, the face and the name. -/
structure ButtonFaces where
  bdcolor : Int
  bgcolor : Int
  fgcolor : Int
  deriving DecidableEq, Repr

/-- `clear_button_init` -/
def clearButtonInit : ButtonFaces := ⟨COLOR_RED_IDX, COLOR_BLUE_IDX, COLOR_WHITE_IDX⟩

/-- The static `switch_button`, which no code that is compiled initialises, and `clear_button`
on an output without a panel. -/
def buttonUnset : ButtonFaces := ⟨0, 0, 0⟩

/-- `clear_button_redraw` and `switch_button_redraw`. -/
def ButtonFaces.redraw (b : ButtonFaces) (color : Int) : List Int := [color, b.fgcolor]

/-- The indices of a window with a list: the window, its menu and the menu's name. -/
def listWindowInit (s : Attached) (cfg : DfConfig) : Option (List Int) := do
  let menuBgcolor ← fetchColor s (ascii "menu_bgcolor") COLOR_YELLOW_IDX
  let menuFgcolor ← fetchColor s (ascii "menu_fgcolor") COLOR_BLACK_IDX
  some [cfg.itemInitBgcolor, menuBgcolor, menuFgcolor]

/-- The indices `auto_window_init` uses. -/
def autoWindowColors (s : Attached) (cfg : DfConfig) : Option (List Int) := listWindowInit s cfg

/-- The indices `manual_window_init` uses, with the clear button on an LCD. -/
def manualWindowColors (s : Attached) (cfg : DfConfig) (lcd : Bool) : Option (List Int) := do
  let window ← listWindowInit s cfg
  some (window ++ if lcd then
    [clearButtonInit.bdcolor, clearButtonInit.bgcolor, clearButtonInit.fgcolor] else [])

/-- The indices `wifi_window_init` uses: the colours of the menu are fetched and overwritten. -/
def wifiWindowColors (s : Attached) (cfg : DfConfig) : Option (List Int) := do
  let _ ← listWindowInit s cfg
  some [cfg.itemInitBgcolor, COLOR_BEAUTY_IDX, COLOR_WHITE_IDX]

/-! ## The video window -/

/-- The largest `int`. -/
def INT_MAX : Int := 2147483647

/-- A positive `int`. -/
abbrev Width := { w : Int // 0 < w ∧ w ≤ INT_MAX }

/-- `i` and `idx` of `video_window_init`. -/
structure Bars where
  i : Int
  idx : Int
  deriving DecidableEq, Repr

/-- What ends the bars other than their condition: `i` would pass the largest `int`. -/
inductive BarsFault
  | overflow
  deriving DecidableEq, Repr

/-- `i < video_window.desc.width` -/
def barsMore (w : Width) (b : Bars) : Bool := b.i < w.val

/-- `i += video_window.desc.width>>3` and `idx++`, behind a bar of the colour `idx`. -/
def barsStep (w : Width) (b : Bars) : Except BarsFault Bars :=
  let i := b.i + w.val >>> (3 : Nat)
  if i > INT_MAX then .error .overflow else .ok ⟨i, b.idx + 1⟩

/-! ## The touch track -/

/-- `tp_draw_color_idx` after `tp_track_init`, which tests `tp_draw_color`. -/
def tpDrawColorIdx (s : Attached) (tpDrawColor : UInt32) : Option Int := do
  let (ret, v) ← fetchInt s (ascii "df_view") (ascii "tp_draw_color")
  some (if ret ≠ 0 ∨ (tpDrawColor.toNat : Int) > COLOR_BLACK_IDX then COLOR_WHITE_IDX else v)

/-! ## What is drawn later -/

/-- The colours of an item. -/
def itemColors (cfg : DfConfig) : ItemColor → List Int
  | .init => [cfg.itemInitBgcolor, cfg.itemInitFgcolor]
  | .ok => [cfg.itemOkBgcolor, cfg.itemOkFgcolor]
  | .fail => [cfg.itemFailBgcolor, cfg.itemFailFgcolor]

/-- The end of a round of `wifi_hot_point_proccess`. -/
def roundColors (cfg : DfConfig) : List Int := [cfg.itemInitBgcolor]

/-- A hot point: its row, its name, its bars and the line below. -/
def hotPointColors (cfg : DfConfig) (single : Int) : List Int :=
  [cfg.itemInitBgcolor, cfg.itemInitFgcolor,
    if single ≥ -60 then COLOR_GREEN_IDX else COLOR_RED_IDX, COLOR_WHITE_IDX]

/-- The colours a press or a release gives a button. -/
def buttonColors (b : ButtonFaces) (pressed : Bool) : List Int :=
  b.redraw (if pressed then COLOR_CYAN_IDX else b.bgcolor)

/-- The index `idx` is used by a view that runs this script on an LCD or another output, with a
video window of this width. -/
inductive UsesColor (s : Attached) (lcd : Bool) (w : Width) : Int → Prop
  | manual {cfg l idx} (hc : dfConfigInit s = some cfg) (hl : manualWindowColors s cfg lcd = some l)
      (h : idx ∈ l) : UsesColor s lcd w idx
  | auto {cfg l idx} (hc : dfConfigInit s = some cfg) (hl : autoWindowColors s cfg = some l)
      (h : idx ∈ l) : UsesColor s lcd w idx
  | bar {cfg b} (hc : dfConfigInit s = some cfg) (hcamera : cfg.cameraActivated ≠ 0)
      (hb : Reach (barsMore w) (barsStep w) ⟨0, 0⟩ b) (hmore : barsMore w b = true) :
      UsesColor s lcd w b.idx
  | videoLine {cfg} (hc : dfConfigInit s = some cfg) (hcamera : cfg.cameraActivated ≠ 0) :
      UsesColor s lcd w COLOR_WHITE_IDX
  | wifi {cfg l idx} (hc : dfConfigInit s = some cfg) (hl : wifiWindowColors s cfg = some l)
      (h : idx ∈ l) : UsesColor s lcd w idx
  | touch {cfg idx} (hc : dfConfigInit s = some cfg) (hlcd : lcd = true)
      (htp : cfg.tpActivated ≠ 0) (h : tpDrawColorIdx s 0 = some idx) : UsesColor s lcd w idx
  | item {cfg idx} (hc : dfConfigInit s = some cfg) (color : ItemColor)
      (h : idx ∈ itemColors cfg color) : UsesColor s lcd w idx
  | round {cfg idx} (hc : dfConfigInit s = some cfg) (h : idx ∈ roundColors cfg) :
      UsesColor s lcd w idx
  | hotPoint {cfg idx} (hc : dfConfigInit s = some cfg) (single : Int)
      (h : idx ∈ hotPointColors cfg single) : UsesColor s lcd w idx
  | clearButton {idx} (pressed : Bool)
      (h : idx ∈ buttonColors (if lcd then clearButtonInit else buttonUnset) pressed) :
      UsesColor s lcd w idx
  | switchButton {idx} (pressed : Bool) (h : idx ∈ buttonColors buttonUnset pressed) :
      UsesColor s lcd w idx

/-- Every index is in the table, and where there is a video window its bars come to an end. -/
structure ColorsValid (s : Attached) (lcd : Bool) (w : Width) : Prop where
  inTable : ∀ idx, UsesColor s lcd w idx → InTable idx
  barsEnd : ∀ cfg, dfConfigInit s = some cfg → cfg.cameraActivated ≠ 0 →
    ∃ b, Ends (barsMore w) (barsStep w) ⟨0, 0⟩ (.ok b)

/-- The widths that are eight bars, or nine of which the last is cut. -/
def BarsFit (w : Width) : Prop :=
  w.val % 8 = 0 ∨ w.val % 8 ≤ w.val / 8 ∧ 9 * (w.val / 8) ≤ INT_MAX

/-- The colour of the touch track is not in the script, or an entry of the table. -/
def TrackColorGiven (s : Attached) : Prop :=
  ∀ ret v, fetchInt s (ascii "df_view") (ascii "tp_draw_color") = some (ret, v) →
    ret = 0 → InTable v

/-! ## The colours fetched -/

instance (idx : Int) : Decidable (InTable idx) := inferInstanceAs (Decidable (_ ∧ _))

/-- A colour between white and black is in the table. -/
theorem inTable_of_range {v : Int} (h : ¬ (v < COLOR_WHITE_IDX ∨ v > COLOR_BLACK_IDX)) :
    InTable v := by
  unfold COLOR_WHITE_IDX COLOR_BLACK_IDX at h
  unfold InTable COLORS
  omega

theorem fetchColor_inTable {s : Attached} {key : List UInt8} {fallback c : Int}
    (hfallback : InTable fallback) (h : fetchColor s key fallback = some c) : InTable c := by
  obtain ⟨⟨ret, v⟩, -, h⟩ := Option.bind_eq_some_iff.mp h
  cases h
  split
  · exact hfallback
  · next hn => exact inTable_of_range fun hv => hn (.inr hv)

/-- The colours of the items. -/
def DfConfig.colors (cfg : DfConfig) : List Int :=
  [cfg.itemInitBgcolor, cfg.itemInitFgcolor, cfg.itemOkBgcolor, cfg.itemOkFgcolor,
    cfg.itemFailBgcolor, cfg.itemFailFgcolor]

theorem dfConfigInit_inTable {s : Attached} {cfg : DfConfig} (h : dfConfigInit s = some cfg) :
    ∀ idx ∈ cfg.colors, InTable idx := by
  simp only [dfConfigInit, Option.bind_eq_bind, Option.bind_eq_some_iff, Option.some.injEq] at h
  obtain ⟨tp, -, camera, -, a, ha, b, hb, c, hc, d, hd, e, he, f, hf, rfl⟩ := h
  have ha' := fetchColor_inTable (by decide) ha
  have hb' := fetchColor_inTable (by decide) hb
  have hc' := fetchColor_inTable (by decide) hc
  have hd' := fetchColor_inTable (by decide) hd
  have he' := fetchColor_inTable (by decide) he
  have hf' := fetchColor_inTable (by decide) hf
  simp [DfConfig.colors, ha', hb', hc', hd', he', hf']

theorem listWindowInit_inTable {s : Attached} {cfg : DfConfig} (hc : dfConfigInit s = some cfg)
    {l : List Int} (h : listWindowInit s cfg = some l) : ∀ idx ∈ l, InTable idx := by
  simp only [listWindowInit, Option.bind_eq_bind, Option.bind_eq_some_iff, Option.some.injEq] at h
  obtain ⟨bg, hbg, fg, hfg, rfl⟩ := h
  have hbg' := fetchColor_inTable (by decide) hbg
  have hfg' := fetchColor_inTable (by decide) hfg
  have hinit := dfConfigInit_inTable hc cfg.itemInitBgcolor (by simp [DfConfig.colors])
  simp [hinit, hbg', hfg']

/-- The touch track uses what it fetched: the colour it tests is still 0. -/
theorem tpDrawColorIdx_inTable (s : Attached) :
    (∀ idx, tpDrawColorIdx s 0 = some idx → InTable idx) ↔ TrackColorGiven s := by
  rw [TrackColorGiven, tpDrawColorIdx]
  cases fetchInt s (ascii "df_view") (ascii "tp_draw_color") with
  | none =>
    refine iff_of_true ?_ ?_
    · intro idx h
      cases h
    · intro ret v h
      cases h
  | some r =>
    obtain ⟨ret, v⟩ := r
    have hblack : ¬ ((0 : UInt32).toNat : Int) > COLOR_BLACK_IDX := by decide
    refine ⟨?_, ?_⟩
    · intro h ret' v' hr hret
      cases hr
      apply h
      show some (if ret ≠ 0 ∨ _ then _ else _) = _
      rw [if_neg (not_or.mpr ⟨not_not.mpr hret, hblack⟩)]
    · intro h idx hidx
      cases hidx
      split
      · decide
      · next hn => exact h ret v rfl (not_not.mp (not_or.mp hn).1)

/-! ## The bars -/

section Bars
variable {w : Width}

/-- The bar `k`. -/
def bar (w : Width) (k : Nat) : Bars := ⟨k * (w.val / 8), k⟩

theorem bar_zero (w : Width) : bar w 0 = ⟨0, 0⟩ := by
  simp [bar]

theorem barsMore_iff (k : Nat) : barsMore w (bar w k) = true ↔ k * (w.val / 8) < w.val := by
  exact decide_eq_true_iff

theorem shiftRight_three (v : Int) : v >>> (3 : Nat) = v / 8 := Int.shiftRight_eq_div_pow v 3

theorem barsStep_bar (k : Nat) : barsStep w (bar w k) =
    if (k + 1) * (w.val / 8) > INT_MAX then .error .overflow else .ok (bar w (k + 1)) := by
  have hi : (bar w k).i + w.val >>> (3 : Nat) = (k + 1) * (w.val / 8) := by
    rw [shiftRight_three, bar]
    ring
  have hnext : (⟨(k + 1) * (w.val / 8), (bar w k).idx + 1⟩ : Bars) = bar w (k + 1) := by
    simp [bar]
  rw [barsStep, hi, hnext]

/-- As long as there is more to fill, the next bar is drawn. -/
theorem bars_reach {n : Nat} (h : ∀ k < n, (k : Int) * (w.val / 8) < w.val ∧
    ((k : Int) + 1) * (w.val / 8) ≤ INT_MAX) :
    Reach (barsMore w) (barsStep w) ⟨0, 0⟩ (bar w n) := by
  induction n with
  | zero =>
    rw [bar_zero]
    exact .refl
  | succ n ih =>
    obtain ⟨hmore, hmax⟩ := h n (Nat.lt_succ_self n)
    refine .tail (ih fun k hk => h k (Nat.lt_succ_of_lt hk)) ((barsMore_iff n).mpr hmore) ?_
    rw [barsStep_bar, if_neg (not_lt.mpr hmax)]

/-- Every bar drawn is the next one. -/
theorem bars_of_reach {b : Bars} (h : Reach (barsMore w) (barsStep w) ⟨0, 0⟩ b) :
    ∃ k, b = bar w k := by
  apply h.invariant (I := fun b => ∃ k, b = bar w k)
  · exact ⟨0, (bar_zero w).symm⟩
  · rintro t u ⟨k, rfl⟩ - hstep
    rw [barsStep_bar] at hstep
    split at hstep
    · cases hstep
    · exact ⟨k + 1, (Except.ok.inj hstep).symm⟩

/-- Bars that fit the width: eight of them, or nine. -/
theorem bars_fit (h : BarsFit w) : ∃ n : Nat, n ≤ 9 ∧ w.val ≤ (n : Int) * (w.val / 8) ∧
    ∀ k < n, (k : Int) * (w.val / 8) < w.val ∧ ((k : Int) + 1) * (w.val / 8) ≤ INT_MAX := by
  have hpos := w.property.1
  have hmax := w.property.2
  have hdiv := Int.mul_ediv_add_emod w.val 8
  have hmod := Int.emod_nonneg w.val (show (8 : Int) ≠ 0 by decide)
  by_cases hwhole : w.val % 8 = 0
  · refine ⟨8, by omega, by omega, ?_⟩
    intro k hk
    interval_cases k <;> omega
  · obtain ⟨hrest, hlast⟩ := h.resolve_left hwhole
    refine ⟨9, le_refl 9, by omega, ?_⟩
    intro k hk
    interval_cases k <;> omega

/-- Bars that do not fit go on to the tenth, or past the largest `int`. -/
theorem bars_of_not_fit (h : ¬ BarsFit w) :
    (Reach (barsMore w) (barsStep w) ⟨0, 0⟩ (bar w 9) ∧ barsMore w (bar w 9) = true) ∨
      Ends (barsMore w) (barsStep w) ⟨0, 0⟩ (.error .overflow) := by
  have hpos := w.property.1
  have hmax := w.property.2
  have hdiv := Int.mul_ediv_add_emod w.val 8
  have hmod := Int.emod_nonneg w.val (show (8 : Int) ≠ 0 by decide)
  obtain ⟨hzero, hnine⟩ := not_or.mp h
  by_cases hlt : 9 * (w.val / 8) < w.val
  · refine .inl ⟨?_, (barsMore_iff 9).mpr hlt⟩
    apply bars_reach
    intro k hk
    interval_cases k <;> omega
  · -- the bar behind the ninth starts past the largest `int`
    have hover : 9 * (w.val / 8) > INT_MAX := by
      by_contra hle
      exact hnine ⟨by omega, not_lt.mp hle⟩
    have hreach : Reach (barsMore w) (barsStep w) ⟨0, 0⟩ (bar w 8) := by
      apply bars_reach
      intro k hk
      interval_cases k <;> omega
    have hmore : barsMore w (bar w 8) = true := (barsMore_iff 8).mpr (by omega)
    have hstep : barsStep w (bar w 8) = .error .overflow := by
      rw [barsStep_bar]
      exact if_pos hover
    exact .inr ((ends_of_reach hreach).mpr ⟨1, whileLoop_error hmore hstep 0⟩)

/-- A loop that draws `n` bars ends behind them. -/
theorem bars_end {n : Nat} (hend : w.val ≤ (n : Int) * (w.val / 8))
    (h : ∀ k < n, (k : Int) * (w.val / 8) < w.val ∧ ((k : Int) + 1) * (w.val / 8) ≤ INT_MAX) :
    Ends (barsMore w) (barsStep w) ⟨0, 0⟩ (.ok (bar w n)) := by
  refine ⟨n, ?_⟩
  rw [← bar_zero w]
  apply whileLoop_count
  · rw [← Bool.not_eq_true, barsMore_iff]
    exact not_lt.mpr hend
  · intro k hk
    obtain ⟨hmore, hmax⟩ := h k hk
    exact ⟨(barsMore_iff k).mpr hmore, by rw [barsStep_bar, if_neg (not_lt.mpr hmax)]⟩

/-- And no bar behind them is drawn. -/
theorem bars_lt {n : Nat} (hend : w.val ≤ (n : Int) * (w.val / 8)) {b : Bars}
    (hb : Reach (barsMore w) (barsStep w) ⟨0, 0⟩ b) (hmore : barsMore w b = true) :
    ∃ k < n, b = bar w k := by
  obtain ⟨k, rfl⟩ := bars_of_reach hb
  have hk := (barsMore_iff k).mp hmore
  refine ⟨k, ?_, rfl⟩
  by_contra hge
  have hq : 0 ≤ w.val / 8 := Int.ediv_nonneg (le_of_lt w.property.1) (by decide)
  have hmono := mul_le_mul_of_nonneg_right (Int.ofNat_le.mpr (not_lt.mp hge)) hq
  exact absurd hk (not_lt.mpr (le_trans hend hmono))

/-- **The bars of a window** end and stay in the table just when they fit its width. -/
theorem bars_valid_iff :
    ((∀ b, Reach (barsMore w) (barsStep w) ⟨0, 0⟩ b → barsMore w b = true → InTable b.idx) ∧
      ∃ b, Ends (barsMore w) (barsStep w) ⟨0, 0⟩ (.ok b)) ↔ BarsFit w := by
  refine ⟨?_, ?_⟩
  · intro ⟨hin, b, n, hn⟩
    by_contra hfit
    rcases bars_of_not_fit hfit with ⟨hreach, hmore⟩ | ⟨m, hm⟩
    · exact absurd (hin _ hreach hmore).2 (lt_irrefl COLORS)
    · cases whileLoop_unique hn hm
  · intro hfit
    obtain ⟨n, hn, hend, hbars⟩ := bars_fit hfit
    refine ⟨?_, bar w n, bars_end hend hbars⟩
    intro b hb hmore
    obtain ⟨k, hk, rfl⟩ := bars_lt hend hb hmore
    show 0 ≤ (k : Int) ∧ (k : Int) < COLORS
    unfold COLORS
    omega

end Bars

/-! ## All of them -/

theorem itemColors_inTable {s : Attached} {cfg : DfConfig} (hc : dfConfigInit s = some cfg)
    (color : ItemColor) : ∀ idx ∈ itemColors cfg color, InTable idx := by
  intro idx h
  apply dfConfigInit_inTable hc
  cases color
  all_goals
    simp only [itemColors, List.mem_cons, List.not_mem_nil, or_false] at h
    simp only [DfConfig.colors, List.mem_cons, List.not_mem_nil, or_false]
    grind

theorem hotPointColors_inTable {s : Attached} {cfg : DfConfig} (hc : dfConfigInit s = some cfg)
    (single : Int) : ∀ idx ∈ hotPointColors cfg single, InTable idx := by
  have hinit := itemColors_inTable hc .init
  intro idx h
  rw [hotPointColors, List.mem_cons, List.mem_cons, List.mem_cons, List.mem_singleton] at h
  rcases h with rfl | rfl | rfl | rfl
  · exact hinit _ (by simp [itemColors])
  · exact hinit _ (by simp [itemColors])
  · split
    · decide
    · decide
  · decide

theorem buttonColors_inTable {b : ButtonFaces} (hbg : InTable b.bgcolor) (hfg : InTable b.fgcolor)
    (pressed : Bool) : ∀ idx ∈ buttonColors b pressed, InTable idx := by
  intro idx h
  rw [buttonColors, ButtonFaces.redraw, List.mem_cons, List.mem_singleton] at h
  rcases h with rfl | rfl
  · split
    · decide
    · exact hbg
  · exact hfg

/-- An index from anywhere but the bars and the touch track is in the table. -/
theorem UsesColor.inTable {s : Attached} {lcd : Bool} {w : Width} {idx : Int}
    (h : UsesColor s lcd w idx)
    (hbars : ∀ cfg, dfConfigInit s = some cfg → cfg.cameraActivated ≠ 0 →
      ∀ b, Reach (barsMore w) (barsStep w) ⟨0, 0⟩ b → barsMore w b = true → InTable b.idx)
    (htouch : ∀ cfg, dfConfigInit s = some cfg → lcd = true → cfg.tpActivated ≠ 0 →
      ∀ idx, tpDrawColorIdx s 0 = some idx → InTable idx) : InTable idx := by
  cases h with
  | manual hc hl h =>
    obtain ⟨window, hwindow, hl⟩ := Option.bind_eq_some_iff.mp hl
    cases hl
    rcases List.mem_append.mp h with h | h
    · exact listWindowInit_inTable hc hwindow _ h
    · cases lcd with
      | false => cases h
      | true =>
        simp only [if_true, clearButtonInit, List.mem_cons, List.not_mem_nil, or_false] at h
        rcases h with rfl | rfl | rfl <;> decide
  | auto hc hl h => exact listWindowInit_inTable hc hl _ h
  | bar hc hcamera hb hmore => exact hbars _ hc hcamera _ hb hmore
  | videoLine => decide
  | wifi hc hl h =>
    obtain ⟨menu, -, hl⟩ := Option.bind_eq_some_iff.mp hl
    cases hl
    rw [List.mem_cons, List.mem_cons, List.mem_singleton] at h
    rcases h with rfl | rfl | rfl
    · exact itemColors_inTable hc .init _ (by simp [itemColors])
    · decide
    · decide
  | touch hc hlcd htp h => exact htouch _ hc hlcd htp _ h
  | item hc color h => exact itemColors_inTable hc color _ h
  | round hc h =>
    rw [List.mem_singleton.mp h]
    exact itemColors_inTable hc .init _ (by simp [itemColors])
  | hotPoint hc single h => exact hotPointColors_inTable hc single _ h
  | clearButton pressed h =>
    cases lcd with
    | false => exact buttonColors_inTable (by decide) (by decide) pressed _ h
    | true => exact buttonColors_inTable (by decide) (by decide) pressed _ h
  | switchButton pressed h => exact buttonColors_inTable (by decide) (by decide) pressed _ h

/-- **Every index into the colour table is in it, and the bars come to an end, just when the bars
of the video window fit its width and the script's colour of the touch track is in the table**,
each where there is such a window and such a track. -/
theorem colors_valid_iff (s : Attached) (lcd : Bool) (w : Width) :
    ColorsValid s lcd w ↔ ∀ cfg, dfConfigInit s = some cfg →
      (cfg.cameraActivated ≠ 0 → BarsFit w) ∧
        (lcd = true → cfg.tpActivated ≠ 0 → TrackColorGiven s) := by
  refine ⟨?_, ?_⟩
  · intro h cfg hc
    refine ⟨?_, ?_⟩
    · intro hcamera
      apply bars_valid_iff.mp
      refine ⟨?_, h.barsEnd cfg hc hcamera⟩
      intro b hb hmore
      exact h.inTable _ (.bar hc hcamera hb hmore)
    · intro hlcd htp
      apply (tpDrawColorIdx_inTable s).mp
      intro idx hidx
      exact h.inTable _ (.touch hc hlcd htp hidx)
  · intro h
    refine ⟨?_, ?_⟩
    · intro idx huse
      apply huse.inTable
      · intro cfg hc hcamera
        exact (bars_valid_iff.mpr ((h cfg hc).1 hcamera)).1
      · intro cfg hc hlcd htp
        exact (tpDrawColorIdx_inTable s).mpr ((h cfg hc).2 hlcd htp)
    · intro cfg hc hcamera
      exact (bars_valid_iff.mpr ((h cfg hc).1 hcamera)).2

/-- A script whose touch track is drawn in the colour 9; and a window of fifteen pixels, which
takes fifteen bars. -/
theorem colors_out_of_table :
    (∃ img s, Compiles ⟨ascii "[tp]\nactivated=1\n[df_view]\ntp_draw_color=9\n", 0, [0]⟩ img ∧
      initScript img = some s ∧ ∀ w, ¬ ColorsValid s true w) ∧
    ∃ img s, Compiles ⟨ascii "[camera]\nactivated=1\n", 0, [0]⟩ img ∧
      initScript img = some s ∧ ¬ ColorsValid s true ⟨15, by decide⟩ := by
  refine ⟨?_, ?_⟩
  · have hrun : ((parseScript 4 ⟨ascii "[tp]\nactivated=1\n[df_view]\ntp_draw_color=9\n", 0,
        [0]⟩).bind Except.toOption).map (fun img => (initScript img).map fun s =>
          ((dfConfigInit s).map (·.tpActivated), tpDrawColorIdx s 0)) =
            some (some (some 1, some 9)) := by decide +kernel
    obtain ⟨img, himg, hs⟩ := Option.map_eq_some_iff.mp hrun
    obtain ⟨s, hs, hpair⟩ := Option.map_eq_some_iff.mp hs
    obtain ⟨hcfg, hidx⟩ := Prod.mk.inj hpair
    obtain ⟨cfg, hcfg, htp⟩ := Option.map_eq_some_iff.mp hcfg
    refine ⟨img, s, compiles_of_run himg, hs, ?_⟩
    intro w h
    have hnine := h.inTable 9 (.touch hcfg rfl (by rw [htp]; decide) hidx)
    exact absurd hnine (by decide)
  · have hrun : ((parseScript 2 ⟨ascii "[camera]\nactivated=1\n", 0, [0]⟩).bind
        Except.toOption).map (fun img => (initScript img).map fun s =>
          (dfConfigInit s).map (·.cameraActivated)) = some (some (some 1)) := by decide +kernel
    obtain ⟨img, himg, hs⟩ := Option.map_eq_some_iff.mp hrun
    obtain ⟨s, hs, hcfg⟩ := Option.map_eq_some_iff.mp hs
    obtain ⟨cfg, hcfg, hcamera⟩ := Option.map_eq_some_iff.mp hcfg
    refine ⟨img, s, compiles_of_run himg, hs, ?_⟩
    intro h
    have hbars := reach_iff_atHead.mpr ⟨9, show atHead (barsMore ⟨15, by decide⟩)
      (barsStep ⟨15, by decide⟩) 9 ⟨0, 0⟩ = some ⟨9, 9⟩ by decide⟩
    have hnine := h.inTable 9 (.bar hcfg (by rw [hcamera]; decide) hbars (by decide))
    exact absurd hnine (by decide)

end Lichee.View

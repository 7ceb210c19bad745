import Lichee.Base.Stdio
import Lichee.Base.Errors
import Lichee.View.Items

/- The list of Wi-Fi hot points (`wifi_hot_point_proccess` of df_view.c). Each line of the
   pipe names a hot point and its level, or ends a round. The list, the count and the next row
   are three pieces of state that move together (`Wifi.Listed`), unless a line writes past the
   entry it is stored in, or a round ends with entries in the list: the loop that frees them
   goes on from an entry it has just freed (`wifi_list_iff`). What is drawn is left out. -/
namespace Lichee.View
open Base

/-! ## The list -/

/-- `struct one_wifi_hot_point` -/
structure HotPoint where
  ssid : List UInt8
  y : Int
  height : Int
  deriving DecidableEq, Repr

/-- `wifi_list` and `wifi_hot_point_display` -/
structure Wifi where
  list : List HotPoint
  current_display_position_y : Int
  one_point_display_height : Int
  total_point_can_be_display : Int
  total_point_have_displayed : Int
  total_point_searched : Int
  deriving DecidableEq, Repr

/-- What the program leaves to its platform: the bytes of an entry from `single_level_db` on
that a copy may write, and whether the links of an entry can be read when it has been freed. -/
structure Platform where
  room : Nat
  freedReadable : Bool
  deriving DecidableEq, Repr

inductive WifiFault
  /-- a copy past the end of what it is copied to -/
  | overflow
  /-- the next entry is read from one that was freed -/
  | useAfterFree
  deriving DecidableEq, Repr

/-- What `wifi_window_init` leaves, in a window of this height. -/
def wifiWindowInit (height : Int) : Wifi where
  list := []
  current_display_position_y := MENU_HEIGHT
  one_point_display_height := ITEM_HEIGHT
  total_point_can_be_display := (height - MENU_HEIGHT).tdiv ITEM_HEIGHT
  total_point_have_displayed := 0
  total_point_searched := 0

/-- What `fgets(buffer, sizeof(buffer), wifi_pipe)` may store. -/
abbrev PipeLine := { line : List UInt8 // line.length ≤ 63 }

def isSeparator (buffer : List UInt8) : Bool := cstr buffer == ascii "######\n"

/-- The SSID and the level of a line, `none` where one of them is missing. -/
def wifiFields (buffer : List UInt8) : Option (List UInt8 × List UInt8) := do
  let (ssid, rest) ← strtok [0x3a] (cstr buffer)
  let (single_level_db, _) ← strtok [chLf] rest
  some (ssid, single_level_db)

/-- A hot point is searched. -/
def Wifi.count (w : Wifi) : Wifi := { w with total_point_searched := w.total_point_searched + 1 }

/-- And listed. -/
def Wifi.add (w : Wifi) (ssid : List UInt8) : Wifi :=
  { w with
    list := w.list ++ [⟨ssid, w.current_display_position_y, w.one_point_display_height⟩]
    current_display_position_y := w.current_display_position_y + w.one_point_display_height
    total_point_have_displayed := w.total_point_have_displayed + 1 }

/-- One line through `wifi_hot_point_proccess`. -/
def wifiLine (platform : Platform) (height : Int) (w : Wifi) (line : PipeLine) :
    Except WifiFault Wifi :=
  if isSeparator line.val then
    if w.list ≠ [] ∧ platform.freedReadable = false then .error .useAfterFree
    else .ok (wifiWindowInit height)
  else
    match wifiFields line.val with
    | none => .ok w
    | some (ssid, single_level_db) =>
      if w.list.any (·.ssid == ssid) then .ok w
      else if w.total_point_have_displayed ≥ w.total_point_can_be_display then .ok w.count
      else if ssid.length + 1 > 64 then .error .overflow
      else if single_level_db.length + 1 > platform.room then .error .overflow
      else .ok (w.count.add ssid)

/-- The lines of a run. -/
def wifiLines (platform : Platform) (height : Int) (lines : List PipeLine) :
    Except WifiFault Wifi :=
  lines.foldlM (wifiLine platform height) (wifiWindowInit height)

/-! ## The invariant -/

/-- The hot points listed are distinct, as many as counted and as the window has room for, and
stand in consecutive rows inside it. -/
structure Wifi.Listed (height : Int) (w : Wifi) : Prop where
  distinct : (w.list.map (·.ssid)).Nodup
  count : (w.list.length : Int) = w.total_point_have_displayed
  room : w.total_point_have_displayed ≤ (height - MENU_HEIGHT).tdiv ITEM_HEIGHT
  rows : ∀ (k : Nat) (hk : k < w.list.length), w.list[k].y = MENU_HEIGHT + ITEM_HEIGHT * k ∧
    w.list[k].y + ITEM_HEIGHT ≤ height

/-- What the rows to come are computed from. -/
structure Wifi.Tracked (height : Int) (w : Wifi) : Prop extends w.Listed height where
  next : w.current_display_position_y = MENU_HEIGHT + ITEM_HEIGHT * w.list.length
  step : w.one_point_display_height = ITEM_HEIGHT
  limit : w.total_point_can_be_display = (height - MENU_HEIGHT).tdiv ITEM_HEIGHT

/-- A line of a hot point in the list. -/
def Known (w : Wifi) (line : PipeLine) : Prop :=
  isSeparator line.val = false ∧
    ∃ ssid level, wifiFields line.val = some (ssid, level) ∧ ssid ∈ w.list.map (·.ssid)

/-- A line whose hot point is added, and the text of its level. -/
def Adds (w : Wifi) (line : PipeLine) (level : List UInt8) : Prop :=
  isSeparator line.val = false ∧ ∃ ssid, wifiFields line.val = some (ssid, level) ∧
    ssid ∉ w.list.map (·.ssid) ∧ w.total_point_have_displayed < w.total_point_can_be_display

/-- A line that neither fills an entry past its end nor frees entries that cannot be read. -/
def Harmless (platform : Platform) (w : Wifi) (line : PipeLine) : Prop :=
  (∀ level, Adds w line level → level.length < platform.room) ∧
    (isSeparator line.val = true → w.list = [] ∨ platform.freedReadable = true)

/-- What a line leaves of a list that is kept as it should be. -/
structure LineKept (height : Int) (w w' : Wifi) (line : PipeLine) : Prop where
  listed : w'.Listed height
  known : Known w line → w' = w
  separator : isSeparator line.val = true → w'.list = [] ∧ w'.total_point_have_displayed = 0 ∧
    w'.current_display_position_y = MENU_HEIGHT

/-- The list is kept as it should be from the start and after every line. -/
def ListKept (platform : Platform) (height : Int) (lines : List PipeLine) : Prop :=
  (wifiWindowInit height).Listed height ∧
    ∀ pre line post, lines = pre ++ line :: post →
      ∃ w w', wifiLines platform height pre = .ok w ∧
        wifiLine platform height w line = .ok w' ∧ LineKept height w w' line

/-! ## One line -/

theorem strtok_length {delims s w r : List UInt8} (h : strtok delims s = some (w, r)) :
    w.length + r.length ≤ s.length := by
  have hdrop := s.dropWhile_sublist delims.contains |>.length_le
  simp only [strtok] at h
  split at h
  · cases h
  · next c t hs =>
      obtain ⟨rfl, rfl⟩ := Prod.mk.inj (Option.some.inj h)
      have hsplit := congrArg List.length
        (List.takeWhile_append_dropWhile (p := (!delims.contains ·)) (l := c :: t))
      rw [hs] at hdrop
      rw [List.length_append] at hsplit
      rw [List.length_tail]
      omega

/-- A line is too short for its SSID to fill the entry it is copied to. -/
theorem wifiFields_length {buffer ssid level : List UInt8}
    (h : wifiFields buffer = some (ssid, level)) : ssid.length ≤ buffer.length := by
  simp only [wifiFields, Option.bind_eq_bind, Option.bind_eq_some_iff] at h
  obtain ⟨⟨w, rest⟩, hw, ⟨v, r⟩, -, h⟩ := h
  obtain ⟨rfl, -⟩ := Prod.mk.inj (Option.some.inj h)
  calc w.length ≤ (cstr buffer).length := le_trans (Nat.le_add_right ..) (strtok_length hw)
    _ ≤ buffer.length := cstr_length_le buffer

section Step
variable {platform : Platform} {height : Int} {w w' : Wifi} {line : PipeLine}

theorem any_ssid {list : List HotPoint} {ssid : List UInt8} :
    list.any (·.ssid == ssid) = true ↔ ssid ∈ list.map (·.ssid) := by
  simp

/-- Of a line that names a hot point, only the level can be too long. -/
theorem harmless_point {ssid level : List UInt8} (hsep : isSeparator line.val = false)
    (hf : wifiFields line.val = some (ssid, level)) :
    Harmless platform w line ↔ (ssid ∉ w.list.map (·.ssid) →
      w.total_point_have_displayed < w.total_point_can_be_display →
        level.length < platform.room) := by
  refine ⟨?_, ?_⟩
  · intro h hnew hroom
    exact h.1 level ⟨hsep, ssid, hf, hnew, hroom⟩
  · intro h
    refine ⟨fun level' hadds => ?_, fun hs => by simp [hsep] at hs⟩
    obtain ⟨-, ssid', hf', hnew, hroom⟩ := hadds
    rw [hf] at hf'
    obtain ⟨rfl, rfl⟩ := Prod.mk.inj (Option.some.inj hf')
    exact h hnew hroom

/-- A line goes through just when it is harmless. -/
theorem wifiLine_ok_iff :
    (∃ w', wifiLine platform height w line = .ok w') ↔ Harmless platform w line := by
  cases hsep : isSeparator line.val with
  | true =>
    have hadds : ∀ level, ¬ Adds w line level := fun level h => by simp [h.1] at hsep
    -- the loop that frees the list reads the link of an entry it has just freed
    by_cases hfree : w.list ≠ [] ∧ platform.freedReadable = false
    · simp [wifiLine, Harmless, hsep, hfree]
    · have hsafe : w.list = [] ∨ platform.freedReadable = true := by
        simpa [or_iff_not_imp_left] using hfree
      simp [wifiLine, Harmless, hsep, hfree, hadds, hsafe]
  | false =>
    cases hf : wifiFields line.val with
    | none => simp [wifiLine, Harmless, Adds, hsep, hf]
    | some fields =>
      obtain ⟨ssid, level⟩ := fields
      have hssid : ¬ ssid.length + 1 > 64 := by
        have := wifiFields_length hf
        have := line.property
        omega
      rw [harmless_point hsep hf]
      simp only [wifiLine, hsep, hf, any_ssid, Bool.false_eq_true, if_false]
      by_cases hmem : ssid ∈ w.list.map (·.ssid)
      · simp only [hmem, not_true_eq_false, false_imp_iff, iff_true]
        exact ⟨w, rfl⟩
      · by_cases hfull : w.total_point_have_displayed ≥ w.total_point_can_be_display
        · simp only [if_neg hmem, if_pos hfull]
          exact iff_of_true ⟨w.count, rfl⟩ fun _ h => absurd hfull (not_le.mpr h)
        · simp only [if_neg hmem, if_neg hfull, if_neg hssid]
          by_cases hroom : level.length + 1 > platform.room
          · simp only [if_pos hroom, reduceCtorEq, exists_false, false_iff]
            intro h
            have := h hmem (not_le.mp hfull)
            omega
          · simp only [if_neg hroom]
            exact iff_of_true ⟨_, rfl⟩ fun _ _ => by omega

theorem wifiWindowInit_tracked (h : 0 ≤ (height - MENU_HEIGHT).tdiv ITEM_HEIGHT) :
    (wifiWindowInit height).Tracked height where
  distinct := List.nodup_nil
  count := rfl
  room := h
  rows k hk := absurd hk (Nat.not_lt_zero k)
  next := by simp [wifiWindowInit]
  step := rfl
  limit := rfl

/-- A row above the last one ends inside the window. -/
theorem row_fits {k : Nat} (h : (k : Int) < (height - MENU_HEIGHT).tdiv ITEM_HEIGHT) :
    MENU_HEIGHT + ITEM_HEIGHT * k + ITEM_HEIGHT ≤ height := by
  unfold ITEM_HEIGHT MENU_HEIGHT at *
  by_cases hneg : height - 32 < 0
  · have hquot := Int.tdiv_nonneg (a := 32 - height) (b := 28) (by omega) (by omega)
    rw [← Int.neg_sub, Int.neg_tdiv] at h
    omega
  · rw [Int.tdiv_eq_ediv_of_nonneg (by omega)] at h
    omega

/-- A hot point is added below the others while the window has room for it. -/
theorem Wifi.Tracked.add (hw : w.Tracked height) {ssid : List UInt8}
    (hnew : ssid ∉ w.list.map (·.ssid))
    (hroom : w.total_point_have_displayed < w.total_point_can_be_display) :
    (w.count.add ssid).Tracked height := by
  have hcount := hw.count
  have hlimit := hw.limit
  have hnext := hw.next
  have hlength : (w.count.add ssid).list.length = w.list.length + 1 := by
    simp [Wifi.add, Wifi.count]
  refine ⟨⟨?_, ?_, ?_, fun k hk => ?_⟩, ?_, hw.step, hw.limit⟩
  · rw [show (w.count.add ssid).list.map (·.ssid) = w.list.map (·.ssid) ++ [ssid] by
      simp [Wifi.add, Wifi.count]]
    exact List.nodup_append.mpr ⟨hw.distinct, by simp, by simpa using hnew⟩
  · show ((w.count.add ssid).list.length : Int) = w.total_point_have_displayed + 1
    rw [hlength]; omega
  · show w.total_point_have_displayed + 1 ≤ _
    omega
  · rw [hlength] at hk
    by_cases hlast : k < w.list.length
    · rw [show (w.count.add ssid).list[k] = w.list[k] by
        simp [Wifi.add, Wifi.count, List.getElem_append_left hlast]]
      exact hw.rows k hlast
    · obtain rfl : k = w.list.length := by omega
      have hy : (w.count.add ssid).list[w.list.length].y = w.current_display_position_y := by
        simp [Wifi.add, Wifi.count]
      rw [hy, hnext]
      exact ⟨rfl, row_fits (by omega)⟩
  · show w.current_display_position_y + w.one_point_display_height = _
    rw [hlength, hnext, hw.step]
    push_cast
    ring

/-- What a line leaves where it goes through. -/
theorem wifiLine_kept (hw : w.Tracked height) (h : wifiLine platform height w line = .ok w') :
    w'.Tracked height ∧ LineKept height w w' line := by
  simp only [wifiLine] at h
  split at h
  · next hsep =>
    split at h
    · cases h
    · cases h
      have hroom : 0 ≤ w.total_point_have_displayed := hw.count ▸ Int.natCast_nonneg _
      have hinit : (wifiWindowInit height).Tracked height :=
        wifiWindowInit_tracked (le_trans hroom hw.room)
      exact ⟨hinit, hinit.toListed, fun hk => by simp [hk.1] at hsep, fun _ => ⟨rfl, rfl, rfl⟩⟩
  · next hsep =>
    have hne : ¬ isSeparator line.val = true := hsep
    split at h
    · next hf =>
      cases h
      exact ⟨hw, hw.toListed, fun _ => rfl, fun hs => absurd hs hne⟩
    · next ssid level hf =>
      split at h
      · cases h
        exact ⟨hw, hw.toListed, fun _ => rfl, fun hs => absurd hs hne⟩
      · next hmem =>
        have hnew : ssid ∉ w.list.map (·.ssid) := mt any_ssid.mpr hmem
        have hknown : ¬ Known w line := fun ⟨_, ssid', level', hf', hin⟩ => by
          rw [hf] at hf'
          obtain ⟨rfl, rfl⟩ := Prod.mk.inj (Option.some.inj hf')
          exact hnew hin
        -- a hot point that is new: it is counted, and listed where there is room
        suffices hnext : w'.Tracked height from
          ⟨hnext, hnext.toListed, fun hk => absurd hk hknown, fun hs => absurd hs hne⟩
        split at h
        · cases h
          exact ⟨⟨hw.distinct, hw.count, hw.room, hw.rows⟩, hw.next, hw.step, hw.limit⟩
        · next hfull =>
          split at h
          · cases h
          · split at h
            · cases h
            · cases h
              exact hw.add hnew (not_le.mp hfull)

theorem wifiLines_append {lines : List PipeLine} :
    wifiLines platform height (lines ++ [line]) = .ok w' ↔
      ∃ w, wifiLines platform height lines = .ok w ∧ wifiLine platform height w line = .ok w' := by
  rw [wifiLines, List.foldlM_append]
  exact bind_eq_ok.trans (by simp [wifiLines])

/-- However many lines there were, the list is what the window shows of it. -/
theorem wifiLines_tracked {lines : List PipeLine}
    (hroom : 0 ≤ (height - MENU_HEIGHT).tdiv ITEM_HEIGHT)
    (h : wifiLines platform height lines = .ok w) : w.Tracked height := by
  induction lines using List.reverseRecOn generalizing w with
  | nil =>
    cases h
    exact wifiWindowInit_tracked hroom
  | append_singleton lines line ih =>
    obtain ⟨v, hv, hline⟩ := wifiLines_append.mp h
    exact (wifiLine_kept (ih hv) hline).1

/-! ## The list over a run -/

/-- After every line the hot points listed are distinct, as many as counted and shown inside the
window, one for a hot point already listed changes nothing and the separator empties the list,
just when the window has room for its menu and no line that is read writes past its entry or
frees entries that cannot be read. -/
theorem wifi_list_iff (platform : Platform) (height : Int) (lines : List PipeLine) :
    ListKept platform height lines ↔
      0 ≤ (height - MENU_HEIGHT).tdiv ITEM_HEIGHT ∧
        ∀ pre line post, lines = pre ++ line :: post →
          ∀ w, wifiLines platform height pre = .ok w → Harmless platform w line := by
  refine ⟨?_, ?_⟩
  · intro ⟨hinit, hlines⟩
    refine ⟨le_trans (by simp [wifiWindowInit]) hinit.room, fun pre line post hsplit v hv => ?_⟩
    obtain ⟨w, w', hpre, hline, -⟩ := hlines pre line post hsplit
    obtain rfl : v = w := Except.ok.inj (hv.symm.trans hpre)
    exact wifiLine_ok_iff.mp ⟨w', hline⟩
  · intro ⟨hroom, hlines⟩
    refine ⟨(wifiWindowInit_tracked hroom).toListed, fun pre line post hsplit => ?_⟩
    have hrun : ∀ pre post, lines = pre ++ post → ∃ w, wifiLines platform height pre = .ok w := by
      intro pre
      induction pre using List.reverseRecOn with
      | nil => exact fun _ _ => ⟨_, rfl⟩
      | append_singleton pre line ih =>
        intro post hsplit
        rw [List.append_assoc, List.singleton_append] at hsplit
        obtain ⟨w, hw⟩ := ih (line :: post) hsplit
        obtain ⟨w', hw'⟩ := wifiLine_ok_iff.mpr (hlines pre line post hsplit w hw)
        exact ⟨w', wifiLines_append.mpr ⟨w, hw, hw'⟩⟩
    obtain ⟨w, hw⟩ := hrun pre (line :: post) hsplit
    obtain ⟨w', hw'⟩ := wifiLine_ok_iff.mpr (hlines pre line post hsplit w hw)
    exact ⟨w, w', hw, hw', (wifiLine_kept (wifiLines_tracked hroom hw) hw').2⟩

end Step

/-- Two runs that do not keep the list: a separator when a hot point is listed, where an entry
that was freed cannot be read; and a level of seventeen bytes, where a copy may fill the field
of the level and no more. -/
theorem wifi_list_faults :
    ¬ ListKept ⟨52, false⟩ 384 [⟨ascii "cafe:-60\n", by decide⟩, ⟨ascii "######\n", by decide⟩] ∧
      ¬ ListKept ⟨16, true⟩ 384 [⟨ascii "cafe:guest network:-60\n", by decide⟩] := by
  refine ⟨?_, ?_⟩
  · intro h
    obtain ⟨w, w', hw, hline, -⟩ := h.2 [_] _ [] rfl
    cases hw
    cases hline
  · intro h
    obtain ⟨w, w', hw, hline, -⟩ := h.2 [] _ [] rfl
    cases hw
    cases hline

end Lichee.View

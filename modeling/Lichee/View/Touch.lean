import Mathlib.Data.List.Basic
import Mathlib.Data.List.Induction

/- Touch events (`show_mouse_event` of df_view.c, `tp_track_draw` of tp_track.c). The handler
   tells a button from an axis by the coordinates it has decoded: where both are 0, it is a
   button. A `Pen` follows the events by their type; as long as no axis event decodes to
   (0, 0), and no stroke ends off the screen, the handler and the pen stay together, and every
   segment that is drawn joins two points of the pen's stroke (`touch_strokes`). -/
namespace Lichee.View

/-! ## Events -/

/-- `DIET_AXISMOTION`, or any other type of event. -/
inductive EventType where
  | axisMotion
  | other
  deriving DecidableEq, Repr

/-- `DIAI_X`, `DIAI_Y`, `DIAI_Z` and the other axes. -/
inductive Axis where
  | x
  | y
  | z
  | other (n : Int)
  deriving DecidableEq, Repr

/-- `DFBInputEvent`: `isAbs` and `isRel` are the two bits of `flags`. -/
structure InputEvent where
  type : EventType
  isAbs : Bool
  isRel : Bool
  axis : Axis
  axisabs : Int
  axisrel : Int
  deriving DecidableEq, Repr

structure Rect where
  x : Int
  y : Int
  width : Int
  height : Int
  deriving DecidableEq, Repr

/-- What the handler finds set up: the layer the coordinates are clamped to, the screen the track
is drawn on, the two buttons on the screen, and what the script has for the touch panel. A layer
has at least one pixel. -/
structure TouchConfig where
  layerWidth : Int
  layerHeight : Int
  screenWidth : Int
  screenHeight : Int
  clearButton : Rect
  switchButton : Rect
  tpActivated : Bool
  drawType : Bool
  width_pos : 0 < layerWidth
  height_pos : 0 < layerHeight

/-- `CLAMP(x, 0, high)` -/
def clamp (x high : Int) : Int := if x > high then high else if x < 0 then 0 else x

/-- `mouse_x` and `mouse_y` of an axis motion, by its axis, before they are clamped. -/
def alongAxis (axis : Axis) (value : Int) : Int × Int :=
  match axis with
  | .x => (value, 0)
  | .y => (0, value)
  | _ => (0, 0)

/-- `mouse_x` and `mouse_y` -/
def decode (cfg : TouchConfig) (evt : InputEvent) : Int × Int :=
  match evt.type with
  | .axisMotion =>
    let mouse := if evt.isAbs then alongAxis evt.axis evt.axisabs
      else if evt.isRel then alongAxis evt.axis evt.axisrel
      else (0, 0)
    (clamp mouse.1 (cfg.layerWidth - 1), clamp mouse.2 (cfg.layerHeight - 1))
  | .other => (0, 0)

/-! ## The handler -/

/-- The static variables of `show_mouse_event`, `tp_track_draw` and `button_handle`. `flagX` and
`flagY` are the bits 0x01 and 0x02 of `flag`. -/
structure Touch where
  press : Bool
  tp_x : Int
  tp_y : Int
  flagX : Bool
  flagY : Bool
  pre_x : Int
  pre_y : Int
  clear_press : Bool
  switch_press : Bool
  deriving DecidableEq, Repr

/-- What the handler does: the item of the testcase gets a position, the button handler is run,
the track is drawn on or cleared, a button is drawn. -/
inductive Action where
  | update (x y : Int)
  | button (x y : Int)
  | trackClear
  | clearRedraw (pressed : Bool)
  | switchRedraw (pressed : Bool)
  | pixel (x y : Int)
  | line (x1 y1 x2 y2 : Int)
  deriving DecidableEq, Repr

/-- Where `tp_track_init` leaves the track. -/
def touchInit : Touch := ⟨false, -1, -1, false, false, -1, -1, false, false⟩

def Rect.Holds (r : Rect) (x y : Int) : Prop :=
  x > r.x ∧ x < r.x + r.width ∧ y > r.y ∧ y < r.y + r.height

instance (r : Rect) (x y : Int) : Decidable (r.Holds x y) := by
  unfold Rect.Holds
  infer_instance

/-- `button_handle` -/
def buttonHandle (cfg : TouchConfig) (s : Touch) (x y : Int) : Touch × List Action :=
  if cfg.clearButton.Holds x y then
    if s.clear_press && cfg.tpActivated then
      ({ s with clear_press := false }, [.trackClear, .clearRedraw false])
    else ({ s with clear_press := true }, [.clearRedraw true])
  else if cfg.switchButton.Holds x y then
    if s.switch_press then ({ s with switch_press := false }, [.switchRedraw false])
    else ({ s with switch_press := true }, [.switchRedraw true])
  else ({ s with switch_press := false, clear_press := false }, [])

/-- A point the track has kept to go on from. -/
def Touch.Kept (s : Touch) : Prop := s.pre_x ≠ -1 ∧ s.pre_y ≠ -1

instance (s : Touch) : Decidable s.Kept := inferInstanceAs (Decidable (_ ∧ _))

/-- The points `tp_track_draw` takes. -/
def OnScreen (cfg : TouchConfig) (x y : Int) : Prop :=
  ¬ (x < 0 ∨ x > cfg.screenWidth ∨ y < 0 ∨ y > cfg.screenHeight)

instance (cfg : TouchConfig) (x y : Int) : Decidable (OnScreen cfg x y) :=
  inferInstanceAs (Decidable (¬ _))

/-- The segment from the point kept, if there is one. -/
def Touch.segment (s : Touch) (x y : Int) : List Action :=
  if s.Kept then [.line s.pre_x s.pre_y x y] else []

/-- `tp_track_draw` -/
def tpTrackDraw (cfg : TouchConfig) (s : Touch) (x y press : Int) : Touch × List Action :=
  if OnScreen cfg x y then
    if cfg.drawType then (s, [.pixel x y])
    else if press = -1 then ({ s with pre_x := -1, pre_y := -1 }, s.segment x y)
    else if press = 0 then ({ s with pre_x := x, pre_y := y }, [])
    else if press = 1 then ({ s with pre_x := x, pre_y := y }, s.segment x y)
    else (s, [])
  else (s, [])

/-- The coordinates of the event are noted; one that is 0 is none. -/
def Touch.note (s : Touch) (mouse : Int × Int) : Touch :=
  let s := if mouse.1 ≠ 0 then { s with flagX := true, tp_x := mouse.1 } else s
  if mouse.2 ≠ 0 then { s with flagY := true, tp_y := mouse.2 } else s

def Touch.unflag (s : Touch) : Touch := { s with flagX := false, flagY := false }

/-- `press`, as `tp_track_draw` gets it. -/
def Touch.pressArg (s : Touch) : Int := if s.press then 1 else 0

/-- "handle button event" -/
def buttonEvent (cfg : TouchConfig) (s : Touch) : Touch × List Action :=
  let (t, handled) := buttonHandle cfg s s.tp_x s.tp_y
  let done := [.update s.tp_x s.tp_y, .button s.tp_x s.tp_y] ++ handled
  if t.press && cfg.tpActivated then
    -- "draw last point anyway"
    let (t, drawn) := tpTrackDraw cfg t t.tp_x t.tp_y (-1)
    ({ t.unflag with press := false }, done ++ drawn)
  else
    -- "draw first point if we have get x and y"
    let (t, drawn) := if t.flagX && t.flagY && cfg.tpActivated then
        tpTrackDraw cfg t t.tp_x t.tp_y t.pressArg
      else (t, [])
    ({ t.unflag with press := true }, done ++ drawn)

/-- "draw this point if we have get x and y" -/
def pointEvent (cfg : TouchConfig) (s : Touch) : Touch × List Action :=
  if s.flagX && s.flagY && cfg.tpActivated then
    let (t, drawn) := tpTrackDraw cfg s s.tp_x s.tp_y s.pressArg
    (t.unflag, drawn)
  else (s, [])

/-- `show_mouse_event` -/
def showMouseEvent (cfg : TouchConfig) (s : Touch) (evt : InputEvent) : Touch × List Action :=
  let mouse := decode cfg evt
  let s := s.note mouse
  if mouse = (0, 0) then buttonEvent cfg s else pointEvent cfg s

def touchRun (cfg : TouchConfig) (evts : List InputEvent) : Touch :=
  evts.foldl (fun s evt => (showMouseEvent cfg s evt).1) touchInit

/-! ## Strokes -/

/-- The pen as the events move it: where it is (-1 before that is known), which of its two
coordinates are new since it made its last point, whether it is pressed, and the points of its
stroke. Before it is pressed that is the one point a stroke would start from. -/
structure Pen where
  pressed : Bool
  x : Int
  y : Int
  newX : Bool
  newY : Bool
  stroke : List (Int × Int)
  deriving DecidableEq, Repr

def penInit : Pen := ⟨false, -1, -1, false, false, []⟩

/-- An axis motion moves the pen along its axis. -/
def Pen.move (cfg : TouchConfig) (p : Pen) (axis : Axis) (value : Int) : Pen :=
  match axis with
  | .x => { p with x := clamp value (cfg.layerWidth - 1), newX := true }
  | .y => { p with y := clamp value (cfg.layerHeight - 1), newY := true }
  | _ => p

/-- Two new coordinates make a point, if it is on the screen. -/
def Pen.point (cfg : TouchConfig) (p : Pen) : Pen :=
  if p.newX && p.newY then
    { p with
      newX := false
      newY := false
      stroke := if OnScreen cfg p.x p.y then
          (if p.pressed then p.stroke else []) ++ [(p.x, p.y)]
        else p.stroke }
  else p

/-- An event moves the pen, presses it or lifts it. -/
def Pen.event (cfg : TouchConfig) (p : Pen) (evt : InputEvent) : Pen :=
  match evt.type with
  | .axisMotion =>
    if evt.isAbs then (p.move cfg evt.axis evt.axisabs).point cfg
    else if evt.isRel then (p.move cfg evt.axis evt.axisrel).point cfg
    else p
  | .other =>
    if p.pressed then { p with pressed := false, newX := false, newY := false, stroke := [] }
    else { p with pressed := true, newX := false, newY := false }

def penRun (cfg : TouchConfig) (evts : List InputEvent) : Pen :=
  evts.foldl (Pen.event cfg) penInit

/-- With this event the pen's stroke goes from `a` to `b`: by a new point, or to where the pen is
lifted. -/
structure Pen.Joins (cfg : TouchConfig) (p : Pen) (evt : InputEvent) (a b : Int × Int) : Prop where
  pressed : p.pressed = true
  last : p.stroke.getLast? = some a
  next : evt.type = .axisMotion → (p.event cfg evt).stroke = p.stroke ++ [b]
  lifted : evt.type = .other → b = (p.x, p.y)

/-- What an event may do: only one that is no axis motion changes the pressed state or runs the
button handler, and a segment joins two consecutive points of one stroke. -/
structure EventKept (cfg : TouchConfig) (s : Touch) (p : Pen) (evt : InputEvent) : Prop where
  press : evt.type = .axisMotion → (showMouseEvent cfg s evt).1.press = s.press
  handler : evt.type = .axisMotion → ∀ x y, .button x y ∉ (showMouseEvent cfg s evt).2
  segment : ∀ x1 y1 x2 y2, .line x1 y1 x2 y2 ∈ (showMouseEvent cfg s evt).2 →
    p.Joins cfg evt (x1, y1) (x2, y2)

/-- An axis motion that does not look like a button; and a button that does not end a stroke off
the screen. -/
structure EventFine (cfg : TouchConfig) (s : Touch) (evt : InputEvent) : Prop where
  axis : evt.type = .axisMotion → decode cfg evt ≠ (0, 0)
  button : evt.type = .other → s.press = true → s.Kept → OnScreen cfg s.tp_x s.tp_y

/-! ## Decoding -/

variable {cfg : TouchConfig} {s : Touch} {p : Pen} {evt : InputEvent}

theorem clamp_zero {high : Int} (h : 0 < high) : clamp 0 (high - 1) = 0 := by
  rw [clamp, if_neg (by omega), if_neg (by omega)]

/-- The event decodes to a point, and moves the pen along X or along Y to where that is. -/
def Moves (cfg : TouchConfig) (evt : InputEvent) (v : Int) : Prop :=
  (decode cfg evt = (v, 0) ∧
      ∀ p : Pen, p.event cfg evt = Pen.point cfg { p with x := v, newX := true }) ∨
    (decode cfg evt = (0, v) ∧
      ∀ p : Pen, p.event cfg evt = Pen.point cfg { p with y := v, newY := true })

theorem decode_moves (hevt : evt.type = .axisMotion) (hd : decode cfg evt ≠ (0, 0)) :
    ∃ v, v ≠ 0 ∧ Moves cfg evt v := by
  have hw := clamp_zero cfg.width_pos
  have hh := clamp_zero cfg.height_pos
  -- what follows once the value has been read off the event
  have along : ∀ value, decode cfg evt
        = (clamp (alongAxis evt.axis value).1 (cfg.layerWidth - 1),
          clamp (alongAxis evt.axis value).2 (cfg.layerHeight - 1)) →
      (∀ p : Pen, p.event cfg evt = (p.move cfg evt.axis value).point cfg) →
      ∃ v, v ≠ 0 ∧ Moves cfg evt v := by
    intro value hdec hpen
    cases ha : evt.axis with
    | x =>
      simp only [ha, alongAxis, hh] at hdec
      simp only [ha, Pen.move] at hpen
      refine ⟨_, fun h0 => hd ?_, .inl ⟨hdec, hpen⟩⟩
      rw [hdec, h0]
    | y =>
      simp only [ha, alongAxis, hw] at hdec
      simp only [ha, Pen.move] at hpen
      refine ⟨_, fun h0 => hd ?_, .inr ⟨hdec, hpen⟩⟩
      rw [hdec, h0]
    | z =>
      simp only [ha, alongAxis, hw, hh] at hdec
      exact absurd hdec hd
    | other n =>
      simp only [ha, alongAxis, hw, hh] at hdec
      exact absurd hdec hd
  by_cases habs : evt.isAbs = true
  · apply along evt.axisabs
    · simp only [decode, hevt, if_pos habs]
    · intro p
      simp only [Pen.event, hevt, if_pos habs]
  · by_cases hrel : evt.isRel = true
    · apply along evt.axisrel
      · simp only [decode, hevt, if_neg habs, if_pos hrel]
      · intro p
        simp only [Pen.event, hevt, if_neg habs, if_pos hrel]
    · apply absurd _ hd
      simp only [decode, hevt, if_neg habs, if_neg hrel, hw, hh]

theorem decode_other (hevt : evt.type = .other) : decode cfg evt = (0, 0) := by
  simp only [decode, hevt]

@[simp] theorem note_none (s : Touch) : s.note (0, 0) = s := by
  simp [Touch.note]

theorem note_x (s : Touch) {v : Int} (hv : v ≠ 0) :
    s.note (v, 0) = { s with flagX := true, tp_x := v } := by
  simp [Touch.note, hv]

theorem note_y (s : Touch) {v : Int} (hv : v ≠ 0) :
    s.note (0, v) = { s with flagY := true, tp_y := v } := by
  simp [Touch.note, hv]

/-- The handler takes for a button what decodes to (0, 0). -/
theorem showMouseEvent_button (hd : decode cfg evt = (0, 0)) :
    showMouseEvent cfg s evt = buttonEvent cfg s := by
  simp only [showMouseEvent, hd, note_none, ite_true]

theorem showMouseEvent_point (hd : decode cfg evt ≠ (0, 0)) :
    showMouseEvent cfg s evt = pointEvent cfg (s.note (decode cfg evt)) := by
  simp only [showMouseEvent, if_neg hd]

/-! ## What the parts leave alone -/

/-- The button handler keeps the state of its own two buttons only, and draws no track. -/
theorem buttonHandle_frame (cfg : TouchConfig) (s : Touch) (x y : Int) :
    (∃ c d, (buttonHandle cfg s x y).1 = { s with clear_press := c, switch_press := d }) ∧
      ∀ x1 y1 x2 y2, .line x1 y1 x2 y2 ∉ (buttonHandle cfg s x y).2 := by
  unfold buttonHandle
  split
  · split
    · exact ⟨⟨_, _, rfl⟩, by simp⟩
    · exact ⟨⟨_, _, rfl⟩, by simp⟩
  · split
    · split
      · exact ⟨⟨_, _, rfl⟩, by simp⟩
      · exact ⟨⟨_, _, rfl⟩, by simp⟩
    · exact ⟨⟨_, _, rfl⟩, by simp⟩

/-- The track keeps the point to go on from only. -/
theorem tpTrackDraw_frame (cfg : TouchConfig) (s : Touch) (x y press : Int) :
    ∃ a b, (tpTrackDraw cfg s x y press).1 = { s with pre_x := a, pre_y := b } := by
  unfold tpTrackDraw
  split
  · split
    · exact ⟨_, _, rfl⟩
    · split
      · exact ⟨_, _, rfl⟩
      · split
        · exact ⟨_, _, rfl⟩
        · split
          · exact ⟨_, _, rfl⟩
          · exact ⟨_, _, rfl⟩
  · exact ⟨_, _, rfl⟩

/-- The track draws pixels and segments only. -/
theorem tpTrackDraw_no_button (cfg : TouchConfig) (s : Touch) (x y press bx bY : Int) :
    .button bx bY ∉ (tpTrackDraw cfg s x y press).2 := by
  unfold tpTrackDraw Touch.segment
  split
  · split
    · simp
    · split
      · split
        · simp
        · simp
      · split
        · simp
        · split
          · split
            · simp
            · simp
          · simp
  · simp

/-- A segment of the track starts at the point kept and ends at the new one. -/
theorem tpTrackDraw_line {x y press x1 y1 x2 y2 : Int}
    (h : .line x1 y1 x2 y2 ∈ (tpTrackDraw cfg s x y press).2) :
    OnScreen cfg x y ∧ press ≠ 0 ∧ s.Kept ∧ (x1, y1) = (s.pre_x, s.pre_y) ∧
      (x2, y2) = (x, y) := by
  have segment : .line x1 y1 x2 y2 ∈ s.segment x y →
      s.Kept ∧ (x1, y1) = (s.pre_x, s.pre_y) ∧ (x2, y2) = (x, y) := by
    intro hs
    unfold Touch.segment at hs
    split at hs
    · next hk =>
      obtain ⟨rfl, rfl, rfl, rfl⟩ := Action.line.inj (List.mem_singleton.mp hs)
      exact ⟨hk, rfl, rfl⟩
    · simp at hs
  unfold tpTrackDraw at h
  split at h
  · next hon =>
    split at h
    · simp at h
    · split at h
      · next hm => exact ⟨hon, by omega, segment h⟩
      · split at h
        · simp at h
        · split at h
          · next hp => exact ⟨hon, by omega, segment h⟩
          · simp at h
  · simp at h

/-! ## The handler and the pen -/

/-- The handler's static variables are the pen: the point kept is the last one of the stroke. -/
structure Follows (cfg : TouchConfig) (s : Touch) (p : Pen) : Prop where
  press : p.pressed = s.press
  x : p.x = s.tp_x
  y : p.y = s.tp_y
  newX : p.newX = s.flagX
  newY : p.newY = s.flagY
  stroke : s.Kept → p.stroke.getLast? = some (s.pre_x, s.pre_y)
  pixels : cfg.drawType = true → ¬ s.Kept

theorem Follows.moveX (h : Follows cfg s p) (v : Int) :
    Follows cfg { s with flagX := true, tp_x := v } { p with x := v, newX := true } :=
  { h with x := rfl, newX := rfl }

theorem Follows.moveY (h : Follows cfg s p) (v : Int) :
    Follows cfg { s with flagY := true, tp_y := v } { p with y := v, newY := true } :=
  { h with y := rfl, newY := rfl }

/-- Between two events a point is never pending: it has been drawn as its second coordinate
came. -/
def Settled (s : Touch) : Prop := ¬ (s.flagX = true ∧ s.flagY = true)

theorem pointEvent_idle (h : Settled s) : pointEvent cfg s = (s, []) := by
  rw [pointEvent, if_neg]
  intro hflags
  simp only [Bool.and_eq_true] at hflags
  exact h hflags.1

theorem pointEvent_draw (hx : s.flagX = true) (hy : s.flagY = true)
    (ht : cfg.tpActivated = true) :
    pointEvent cfg s =
      ((tpTrackDraw cfg s s.tp_x s.tp_y s.pressArg).1.unflag,
        (tpTrackDraw cfg s s.tp_x s.tp_y s.pressArg).2) := by
  rw [pointEvent, if_pos (by simp [hx, hy, ht])]

theorem pointEvent_settled (ht : cfg.tpActivated = true) : Settled (pointEvent cfg s).1 := by
  by_cases hs : Settled s
  · rw [pointEvent_idle hs]
    exact hs
  · obtain ⟨hx, hy⟩ := not_not.mp hs
    rw [pointEvent_draw hx hy ht]
    simp [Settled, Touch.unflag]

theorem Follows.point_idle (h : Follows cfg s p) (hs : Settled s) : p.point cfg = p := by
  rw [Pen.point, if_neg]
  intro hnew
  simp only [Bool.and_eq_true, h.newX, h.newY] at hnew
  exact hs hnew

theorem Follows.point_draw (h : Follows cfg s p) (hx : s.flagX = true) (hy : s.flagY = true) :
    p.point cfg = { p with
      newX := false
      newY := false
      stroke := if OnScreen cfg s.tp_x s.tp_y then
          (if s.press then p.stroke else []) ++ [(s.tp_x, s.tp_y)]
        else p.stroke } := by
  rw [Pen.point, if_pos (by simp [h.newX, h.newY, hx, hy]), h.x, h.y, h.press]

/-- The pen follows as the track takes a point, by whether it is pressed. -/
theorem Follows.draw (h : Follows cfg s p) (hx : s.flagX = true) (hy : s.flagY = true) :
    Follows cfg (tpTrackDraw cfg s s.tp_x s.tp_y s.pressArg).1.unflag (p.point cfg) := by
  rw [h.point_draw hx hy]
  by_cases hon : OnScreen cfg s.tp_x s.tp_y
  · by_cases hd : cfg.drawType = true
    · rw [tpTrackDraw, if_pos hon, if_pos hd]
      exact { h with
        newX := rfl
        newY := rfl
        stroke := fun hk => absurd hk (h.pixels hd) }
    · -- pressed or not, the new point is the one kept, and the last of the stroke
      have hkept : (tpTrackDraw cfg s s.tp_x s.tp_y s.pressArg).1
          = { s with pre_x := s.tp_x, pre_y := s.tp_y } := by
        rw [tpTrackDraw, if_pos hon, if_neg hd]
        cases hp : s.press <;> simp [Touch.pressArg, hp]
      rw [hkept, if_pos hon]
      exact { h with
        newX := rfl
        newY := rfl
        stroke := fun _ => List.getLast?_concat
        pixels := fun hd' => absurd hd' hd }
  · rw [tpTrackDraw, if_neg hon, if_neg hon]
    exact { h with newX := rfl, newY := rfl }

theorem Follows.pointEvent (h : Follows cfg s p) (ht : cfg.tpActivated = true) :
    Follows cfg (pointEvent cfg s).1 (p.point cfg) := by
  by_cases hs : Settled s
  · rw [pointEvent_idle hs, h.point_idle hs]
    exact h
  · obtain ⟨hx, hy⟩ := not_not.mp hs
    rw [pointEvent_draw hx hy ht]
    exact h.draw hx hy

/-- A segment drawn on an axis motion goes from the last point of the stroke to the new one. -/
theorem Follows.point_line (h : Follows cfg s p) {x1 y1 x2 y2 : Int}
    (hl : .line x1 y1 x2 y2 ∈ (Lichee.View.pointEvent cfg s).2) :
    p.pressed = true ∧ p.stroke.getLast? = some (x1, y1) ∧
      (p.point cfg).stroke = p.stroke ++ [(x2, y2)] := by
  unfold Lichee.View.pointEvent at hl
  split at hl
  · next hf =>
    simp only [Bool.and_eq_true] at hf
    obtain ⟨hon, hp, hk, h1, h2⟩ := tpTrackDraw_line hl
    have hpress : s.press = true := by
      by_contra hn
      exact hp (by simp [Touch.pressArg, hn])
    refine ⟨h.press.trans hpress, ?_, ?_⟩
    · rw [h1]
      exact h.stroke hk
    · rw [h.point_draw hf.1.1 hf.1.2, if_pos hon, if_pos hpress, h2]
  · simp at hl

/-- What a button does before the track is drawn on. -/
theorem buttonEvent_handled (cfg : TouchConfig) (s : Touch) :
    ∃ c d, (buttonHandle cfg s s.tp_x s.tp_y).1 = { s with clear_press := c, switch_press := d } ∧
      ∀ x1 y1 x2 y2, .line x1 y1 x2 y2 ∉ [.update s.tp_x s.tp_y, .button s.tp_x s.tp_y] ++
        (buttonHandle cfg s s.tp_x s.tp_y).2 := by
  obtain ⟨⟨c, d, hst⟩, hno⟩ := buttonHandle_frame cfg s s.tp_x s.tp_y
  refine ⟨c, d, hst, fun x1 y1 x2 y2 hl => ?_⟩
  obtain hl | hl := List.mem_append.mp hl
  · simp at hl
  · exact hno _ _ _ _ hl

/-- The second button of a stroke lifts the pen: the stroke is drawn to where the pen is. -/
theorem buttonEvent_lift (ht : cfg.tpActivated = true) (hp : s.press = true) :
    ∃ c d handled, let t := { s with clear_press := c, switch_press := d }
      (∀ x1 y1 x2 y2, .line x1 y1 x2 y2 ∉ handled) ∧
      buttonEvent cfg s =
        ({ (tpTrackDraw cfg t s.tp_x s.tp_y (-1)).1.unflag with press := false },
          handled ++ (tpTrackDraw cfg t s.tp_x s.tp_y (-1)).2) := by
  obtain ⟨c, d, hst, hno⟩ := buttonEvent_handled cfg s
  refine ⟨c, d, _, hno, ?_⟩
  simp only [buttonEvent, hst, hp, ht, Bool.and_self, ite_true]

/-- The first one presses it; the track has taken every point already. -/
theorem buttonEvent_press (cfg : TouchConfig) (hs : Settled s) (hp : s.press = false) :
    ∃ c d handled, (∀ x1 y1 x2 y2, .line x1 y1 x2 y2 ∉ handled) ∧
      buttonEvent cfg s =
        ({ s.unflag with press := true, clear_press := c, switch_press := d }, handled) := by
  obtain ⟨c, d, hst, hno⟩ := buttonEvent_handled cfg s
  refine ⟨c, d, _, hno, ?_⟩
  have hflags : (s.flagX && s.flagY && cfg.tpActivated) = false := by
    by_contra hf
    simp only [Bool.not_eq_false, Bool.and_eq_true] at hf
    exact hs hf.1
  simp only [buttonEvent, hst, hp, hflags, Bool.false_and, Bool.false_eq_true, ite_false,
    List.append_nil]
  rfl

theorem Pen.event_lift (hevt : evt.type = .other) (hp : p.pressed = true) :
    p.event cfg evt
      = { p with pressed := false, newX := false, newY := false, stroke := [] } := by
  simp only [Pen.event, hevt, if_pos hp]

theorem Pen.event_press (hevt : evt.type = .other) (hp : p.pressed = false) :
    p.event cfg evt = { p with pressed := true, newX := false, newY := false } := by
  simp [Pen.event, hevt, hp]

/-- A stroke that ends on the screen leaves no point to go on from. -/
theorem track_lift_clears (hpix : cfg.drawType = true → ¬ s.Kept)
    (hon : s.Kept → OnScreen cfg s.tp_x s.tp_y) :
    ¬ (tpTrackDraw cfg s s.tp_x s.tp_y (-1)).1.Kept := by
  by_cases ho : OnScreen cfg s.tp_x s.tp_y
  · by_cases hd : cfg.drawType = true
    · rw [tpTrackDraw, if_pos ho, if_pos hd]
      exact hpix hd
    · rw [tpTrackDraw, if_pos ho, if_neg hd, if_pos rfl]
      exact fun hk => hk.1 rfl
  · rw [tpTrackDraw, if_neg ho]
    exact fun hk => ho (hon hk)

/-- The pen follows the handler over a button. -/
theorem Follows.buttonEvent (h : Follows cfg s p) (hs : Settled s) (ht : cfg.tpActivated = true)
    (hevt : evt.type = .other)
    (hon : s.press = true → s.Kept → OnScreen cfg s.tp_x s.tp_y) :
    Follows cfg (buttonEvent cfg s).1 (p.event cfg evt) ∧ Settled (buttonEvent cfg s).1 := by
  cases hp : s.press with
  | true =>
    obtain ⟨c, d, handled, -, heq⟩ := buttonEvent_lift ht hp
    rw [heq, Pen.event_lift hevt (h.press.trans hp)]
    have hclear : ¬ (tpTrackDraw cfg { s with clear_press := c, switch_press := d }
        s.tp_x s.tp_y (-1)).1.Kept := track_lift_clears h.pixels (hon hp)
    obtain ⟨a, b, hframe⟩ := tpTrackDraw_frame cfg
      { s with clear_press := c, switch_press := d } s.tp_x s.tp_y (-1)
    rw [hframe] at hclear ⊢
    refine ⟨⟨rfl, h.x, h.y, rfl, rfl, fun hk => absurd hk hclear, fun _ => hclear⟩, ?_⟩
    simp [Settled, Touch.unflag]
  | false =>
    obtain ⟨c, d, handled, -, heq⟩ := buttonEvent_press cfg hs hp
    rw [heq, Pen.event_press hevt (h.press.trans hp)]
    refine ⟨⟨rfl, h.x, h.y, rfl, rfl, h.stroke, h.pixels⟩, ?_⟩
    simp [Settled, Touch.unflag]

/-- A segment drawn on a button goes from the last point of the stroke to where it ends. -/
theorem Follows.button_line (h : Follows cfg s p) (hs : Settled s) (ht : cfg.tpActivated = true)
    {x1 y1 x2 y2 : Int} (hl : .line x1 y1 x2 y2 ∈ (Lichee.View.buttonEvent cfg s).2) :
    p.pressed = true ∧ p.stroke.getLast? = some (x1, y1) ∧ (x2, y2) = (p.x, p.y) := by
  cases hp : s.press with
  | true =>
    obtain ⟨c, d, handled, hno, heq⟩ := buttonEvent_lift ht hp
    rw [heq] at hl
    obtain hl | hl := List.mem_append.mp hl
    · exact absurd hl (hno _ _ _ _)
    · obtain ⟨-, -, hk, h1, h2⟩ := tpTrackDraw_line hl
      refine ⟨h.press.trans hp, ?_, ?_⟩
      · rw [h1]
        exact h.stroke hk
      · rw [h2, h.x, h.y]
  | false =>
    obtain ⟨c, d, handled, hno, heq⟩ := buttonEvent_press cfg hs hp
    rw [heq] at hl
    exact absurd hl (hno _ _ _ _)

/-! ## One event -/

@[simp] theorem note_press (s : Touch) (mouse : Int × Int) : (s.note mouse).press = s.press := by
  by_cases hx : mouse.1 = 0 <;> by_cases hy : mouse.2 = 0 <;> simp [Touch.note, hx, hy]

theorem pointEvent_press (cfg : TouchConfig) (s : Touch) :
    (pointEvent cfg s).1.press = s.press := by
  unfold pointEvent
  split
  · obtain ⟨a, b, hframe⟩ := tpTrackDraw_frame cfg s s.tp_x s.tp_y s.pressArg
    simp only [hframe, Touch.unflag]
  · rfl

theorem pointEvent_no_button (cfg : TouchConfig) (s : Touch) (x y : Int) :
    .button x y ∉ (pointEvent cfg s).2 := by
  unfold pointEvent
  split
  · exact tpTrackDraw_no_button _ _ _ _ _ _ _
  · simp

/-- Whatever the event, the handler runs the button handler exactly where it decodes to (0, 0). -/
theorem handler_iff (cfg : TouchConfig) (s : Touch) (evt : InputEvent) :
    (∃ x y, .button x y ∈ (showMouseEvent cfg s evt).2) ↔ decode cfg evt = (0, 0) := by
  refine ⟨?_, ?_⟩
  · intro ⟨x, y, hb⟩
    by_contra hd
    rw [showMouseEvent_point hd] at hb
    exact pointEvent_no_button cfg _ x y hb
  · intro hd
    refine ⟨s.tp_x, s.tp_y, ?_⟩
    rw [showMouseEvent_button hd]
    simp only [buttonEvent]
    split <;> simp

/-- Where the script has no touch panel, nothing is drawn. -/
theorem showMouseEvent_inactive (ht : cfg.tpActivated = false) (s : Touch) (evt : InputEvent)
    (x1 y1 x2 y2 : Int) : .line x1 y1 x2 y2 ∉ (showMouseEvent cfg s evt).2 := by
  by_cases hd : decode cfg evt = (0, 0)
  · obtain ⟨c, d, -, hno⟩ := buttonEvent_handled cfg s
    rw [showMouseEvent_button hd]
    simpa [buttonEvent, ht] using hno x1 y1 x2 y2
  · rw [showMouseEvent_point hd]
    simp [pointEvent, ht]

/-- An axis motion that decodes to a point moves the pen with the coordinate that is noted. -/
theorem Follows.note {v : Int} (h : Follows cfg s p) (hv : v ≠ 0) (hm : Moves cfg evt v) :
    ∃ q, Follows cfg (s.note (decode cfg evt)) q ∧ p.event cfg evt = q.point cfg ∧
      q.pressed = p.pressed ∧ q.stroke = p.stroke := by
  obtain ⟨hdec, hpen⟩ | ⟨hdec, hpen⟩ := hm
  · rw [hdec, note_x s hv]
    exact ⟨_, h.moveX v, hpen p, rfl, rfl⟩
  · rw [hdec, note_y s hv]
    exact ⟨_, h.moveY v, hpen p, rfl, rfl⟩

/-- What holds of the handler and the pen between two events. -/
def Together (cfg : TouchConfig) (s : Touch) (p : Pen) : Prop :=
  cfg.tpActivated = true → Follows cfg s p ∧ Settled s

theorem together_init (cfg : TouchConfig) : Together cfg touchInit penInit := by
  intro _
  have hkept : ¬ touchInit.Kept := fun hk => hk.1 rfl
  exact ⟨⟨rfl, rfl, rfl, rfl, rfl, fun hk => absurd hk hkept, fun _ => hkept⟩,
    by simp [Settled, touchInit]⟩

theorem Together.step (h : Together cfg s p) (hf : EventFine cfg s evt) :
    Together cfg (showMouseEvent cfg s evt).1 (p.event cfg evt) := by
  intro ht
  obtain ⟨hfol, hs⟩ := h ht
  cases hevt : evt.type with
  | axisMotion =>
    have hd := hf.axis hevt
    obtain ⟨v, hv, hm⟩ := decode_moves hevt hd
    obtain ⟨q, hq, hpen, -, -⟩ := hfol.note hv hm
    rw [showMouseEvent_point hd, hpen]
    exact ⟨hq.pointEvent ht, pointEvent_settled ht⟩
  | other =>
    rw [showMouseEvent_button (decode_other hevt)]
    exact hfol.buttonEvent hs ht hevt (hf.button hevt)

/-- A segment, whatever the event, joins two points of the pen's stroke. -/
theorem Together.joins (h : Together cfg s p) (hf : EventFine cfg s evt) {x1 y1 x2 y2 : Int}
    (hl : .line x1 y1 x2 y2 ∈ (showMouseEvent cfg s evt).2) :
    p.Joins cfg evt (x1, y1) (x2, y2) := by
  have ht : cfg.tpActivated = true := by
    by_contra hn
    exact showMouseEvent_inactive (Bool.not_eq_true _ ▸ hn) s evt _ _ _ _ hl
  obtain ⟨hfol, hs⟩ := h ht
  cases hevt : evt.type with
  | axisMotion =>
    have hd := hf.axis hevt
    obtain ⟨v, hv, hm⟩ := decode_moves hevt hd
    obtain ⟨q, hq, hpen, hqp, hqs⟩ := hfol.note hv hm
    rw [showMouseEvent_point hd] at hl
    obtain ⟨hpressed, hlast, hnext⟩ := hq.point_line hl
    refine ⟨hqp ▸ hpressed, hqs ▸ hlast, fun _ => ?_, fun ho => ?_⟩
    · rw [hpen, hnext, hqs]
    · rw [hevt] at ho
      contradiction
  | other =>
    rw [showMouseEvent_button (decode_other hevt)] at hl
    obtain ⟨hpressed, hlast, hend⟩ := hfol.button_line hs ht hl
    refine ⟨hpressed, hlast, fun ha => ?_, fun _ => hend⟩
    rw [hevt] at ha
    contradiction

theorem Together.kept (h : Together cfg s p) (hf : EventFine cfg s evt) :
    EventKept cfg s p evt where
  press hevt := by
    rw [showMouseEvent_point (hf.axis hevt), pointEvent_press, note_press]
  handler hevt x y hb :=
    hf.axis hevt ((handler_iff cfg s evt).mp ⟨x, y, hb⟩)
  segment _ _ _ _ hl := h.joins hf hl

/-! ## Every sequence of events -/

theorem touchRun_snoc (cfg : TouchConfig) (evts : List InputEvent) (evt : InputEvent) :
    touchRun cfg (evts ++ [evt]) = (showMouseEvent cfg (touchRun cfg evts) evt).1 := by
  simp only [touchRun, List.foldl_append, List.foldl_cons, List.foldl_nil]

theorem penRun_snoc (cfg : TouchConfig) (evts : List InputEvent) (evt : InputEvent) :
    penRun cfg (evts ++ [evt]) = (penRun cfg evts).event cfg evt := by
  simp only [penRun, List.foldl_append, List.foldl_cons, List.foldl_nil]

/-- Handler and pen are together after every run of events that were fine as they came. -/
theorem together_run (evts : List InputEvent)
    (h : ∀ pre evt post, evts = pre ++ evt :: post → EventFine cfg (touchRun cfg pre) evt) :
    Together cfg (touchRun cfg evts) (penRun cfg evts) := by
  induction evts using List.reverseRecOn with
  | nil => exact together_init cfg
  | append_singleton evts evt ih =>
    rw [touchRun_snoc, penRun_snoc]
    apply Together.step
    · apply ih
      intro pre e post heq
      exact h pre e (post ++ [evt]) (by rw [heq]; simp)
    · exact h evts evt [] rfl

/-- As long as every axis motion decodes to a point, and no stroke is ended off the screen, an
axis motion neither changes the pressed state nor runs the button handler, and every segment joins
two consecutive points of one stroke. -/
theorem touch_strokes (cfg : TouchConfig) (evts : List InputEvent)
    (h : ∀ pre evt post, evts = pre ++ evt :: post → EventFine cfg (touchRun cfg pre) evt) :
    ∀ pre evt post, evts = pre ++ evt :: post →
      EventKept cfg (touchRun cfg pre) (penRun cfg pre) evt := by
  intro pre evt post heq
  apply Together.kept
  · apply together_run
    intro pre' e post' heq'
    exact h pre' e (post' ++ evt :: post) (by rw [heq, heq']; simp)
  · exact h pre evt post heq

instance (cfg : TouchConfig) (s : Touch) (evt : InputEvent) : Decidable (EventFine cfg s evt) :=
  decidable_of_iff
    ((evt.type = .axisMotion → decode cfg evt ≠ (0, 0)) ∧
      (evt.type = .other → s.press = true → s.Kept → OnScreen cfg s.tp_x s.tp_y))
    ⟨fun h => ⟨h.1, h.2⟩, fun h => ⟨h.axis, h.button⟩⟩

/-- What holds at every place of a list holds of all its splits. -/
theorem forall_split {α : Type} {evts : List α} {P : List α → α → Prop}
    (h : ∀ i : Fin evts.length, P (evts.take i) (evts.get i)) :
    ∀ pre evt post, evts = pre ++ evt :: post → P pre evt := by
  rintro pre evt post rfl
  have hlt : pre.length < (pre ++ evt :: post).length := by simp
  simpa using h ⟨pre.length, hlt⟩

/-- The splits of a list with one more element: those of the list, and the one at the end. -/
theorem forall_split_snoc {α : Type} {evts : List α} {evt : α} {P : List α → α → Prop} :
    (∀ pre e post, evts ++ [evt] = pre ++ e :: post → P pre e) ↔
      (∀ pre e post, evts = pre ++ e :: post → P pre e) ∧ P evts evt := by
  refine ⟨?_, ?_⟩
  · intro h
    refine ⟨fun pre e post hsplit => ?_, h evts evt [] rfl⟩
    apply h pre e (post ++ [evt])
    rw [hsplit, List.append_assoc, List.cons_append]
  · rintro ⟨h, hlast⟩ pre e post hsplit
    rcases List.eq_nil_or_concat' post with rfl | ⟨post, z, rfl⟩
    · obtain ⟨rfl, he⟩ := List.append_inj' hsplit rfl
      cases he
      exact hlast
    · rw [← List.cons_append, ← List.append_assoc] at hsplit
      exact h pre e post (List.append_inj' hsplit rfl).1

/-- A panel of 1024 by 600, with its two buttons in a corner. -/
def touchPanel : TouchConfig where
  layerWidth := 1024
  layerHeight := 600
  screenWidth := 1024
  screenHeight := 600
  clearButton := ⟨900, 0, 100, 40⟩
  switchButton := ⟨900, 50, 100, 40⟩
  tpActivated := true
  drawType := false
  width_pos := by decide
  height_pos := by decide

def moveX (v : Int) : InputEvent := ⟨.axisMotion, true, false, .x, v, 0⟩
def moveY (v : Int) : InputEvent := ⟨.axisMotion, true, false, .y, v, 0⟩
def touchButton : InputEvent := ⟨.other, false, false, .other 0, 0, 0⟩

/-- A stroke of two points: its segment is drawn with the fifth event. -/
theorem touch_strokes_first :
    EventKept touchPanel
      (touchRun touchPanel [moveX 100, moveY 200, touchButton, moveX 110])
      (penRun touchPanel [moveX 100, moveY 200, touchButton, moveX 110]) (moveY 210) :=
  touch_strokes touchPanel
    [moveX 100, moveY 200, touchButton, moveX 110, moveY 210, touchButton]
    (forall_split (by decide))
    [moveX 100, moveY 200, touchButton, moveX 110] (moveY 210) [touchButton] rfl

/-- On a stroke that has started at (100, 200), an X of 0 lifts the pen and runs the button handler;
from then on strokes and the gaps between them have changed places, and a segment is drawn from
(10, 210), the end of one stroke, to (300, 300), before the next has started. -/
theorem touch_apart :
    (∃ evts, evts = [moveX 100, moveY 200, touchButton] ∧
      (showMouseEvent touchPanel (touchRun touchPanel evts) (moveX 0)).1.press
        ≠ (touchRun touchPanel evts).press ∧
      .button 100 200 ∈ (showMouseEvent touchPanel (touchRun touchPanel evts) (moveX 0)).2 ∧
      ¬ EventKept touchPanel (touchRun touchPanel evts) (penRun touchPanel evts) (moveX 0)) ∧
    ∃ evts, evts = [moveX 100, moveY 200, touchButton, moveX 0, moveY 210, moveX 10, touchButton,
        moveX 300] ∧
      (penRun touchPanel evts).pressed = false ∧
      .line 10 210 300 300
        ∈ (showMouseEvent touchPanel (touchRun touchPanel evts) (moveY 300)).2 ∧
      ¬ EventKept touchPanel (touchRun touchPanel evts) (penRun touchPanel evts) (moveY 300) := by
  refine ⟨⟨_, rfl, by decide, by decide, fun h => ?_⟩, _, rfl, by decide, by decide, fun h => ?_⟩
  · exact absurd (h.press rfl) (by decide)
  · exact absurd (h.segment 10 210 300 300 (by decide)).pressed (by decide)

end Lichee.View

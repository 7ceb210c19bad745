import Lichee.View.Touch

/- The two buttons (`button_handle` of df_view.c) over whole sequences of points. Each has a press
   flag, kept in the handler, and a colour, left on the surface by its last redraw, and the code
   changes the two by hand. Where it changes one it changes the other, with one exception: a
   point outside both buttons drops the flags and redraws nothing. And the flag of the clear
   button, which a second press of it clears the track on, is dropped by such a point but not by
   one in the switch button. `buttons_iff`: the protocol is kept just where neither shows.
   `switch_button_init` is called by nothing that is compiled, so on the device the switch button
   has no size and no point falls in it; the handler is modelled for any two buttons. -/
namespace Lichee.View

/-! ## The protocol -/

def COLOR_CYAN_IDX : Nat := 3
def COLOR_BLUE_IDX : Nat := 6

/-- The part of the screen a point falls in, as `button_handle` asks for it. -/
inductive Region where
  | clear
  | switch
  | elsewhere
  deriving DecidableEq, Repr

def region (cfg : TouchConfig) (p : Int × Int) : Region :=
  if cfg.clearButton.Holds p.1 p.2 then .clear
  else if cfg.switchButton.Holds p.1 p.2 then .switch
  else .elsewhere

/-- The colours the two buttons are filled with. -/
structure ButtonColors where
  clear : Nat
  switch : Nat
  deriving DecidableEq, Repr

/-- The `bgcolor` of each: `clear_button_init` fills the clear button with it, that of the switch
button stays the 0 of a static variable. -/
def colorsInit : ButtonColors := ⟨COLOR_BLUE_IDX, 0⟩

/-- The colour a button is redrawn with. -/
def pressColor (bgcolor : Nat) (pressed : Bool) : Nat :=
  if pressed then COLOR_CYAN_IDX else bgcolor

/-- `clear_button_redraw`, `switch_button_redraw` -/
def ButtonColors.redraw (c : ButtonColors) : Action → ButtonColors
  | .clearRedraw pressed => { c with clear := pressColor colorsInit.clear pressed }
  | .switchRedraw pressed => { c with switch := pressColor colorsInit.switch pressed }
  | _ => c

/-- The handler's variables and the buttons on the surface. -/
structure Buttons where
  touch : Touch
  colors : ButtonColors
  deriving DecidableEq, Repr

def buttonsInit : Buttons := ⟨touchInit, colorsInit⟩

/-- One call of `button_handle`. -/
def Buttons.handle (cfg : TouchConfig) (b : Buttons) (p : Int × Int) : Buttons :=
  let (s, acts) := buttonHandle cfg b.touch p.1 p.2
  ⟨s, acts.foldl ButtonColors.redraw b.colors⟩

def buttonsRun (cfg : TouchConfig) (points : List (Int × Int)) : Buttons :=
  points.foldl (Buttons.handle cfg) buttonsInit

/-- Each button has its pressed colour just when its flag is set. -/
structure Buttons.Shown (b : Buttons) : Prop where
  clear : b.colors.clear = COLOR_CYAN_IDX ↔ b.touch.clear_press = true
  switch : b.colors.switch = COLOR_CYAN_IDX ↔ b.touch.switch_press = true

/-- What is asked of the call with `p`, after those with `pre`: the buttons show their flags, and
if the track is cleared, this point and the one before fall in the clear button. -/
structure CallKept (cfg : TouchConfig) (pre : List (Int × Int)) (p : Int × Int) : Prop where
  shown : (buttonsRun cfg (pre ++ [p])).Shown
  cleared : .trackClear ∈ (buttonHandle cfg (buttonsRun cfg pre).touch p.1 p.2).2 →
    region cfg p = .clear ∧ ∃ q, pre.getLast? = some q ∧ region cfg q = .clear

/-- A point outside the buttons comes while no flag is set, and with a touch panel, a point in the
clear button whose flag is set does not come from the switch button. -/
structure CallFine (cfg : TouchConfig) (pre : List (Int × Int)) (p : Int × Int) : Prop where
  elsewhere : region cfg p = .elsewhere →
    (buttonsRun cfg pre).touch.clear_press = false ∧
      (buttonsRun cfg pre).touch.switch_press = false
  clear : cfg.tpActivated = true → region cfg p = .clear →
    (buttonsRun cfg pre).touch.clear_press = true →
      ∀ q, pre.getLast? = some q → region cfg q ≠ .switch

/-! ## One call -/

variable {cfg : TouchConfig} {b : Buttons} {p : Int × Int}

theorem pressColor_iff {bgcolor : Nat} (h : bgcolor ≠ COLOR_CYAN_IDX) (pressed : Bool) :
    pressColor bgcolor pressed = COLOR_CYAN_IDX ↔ pressed = true := by
  cases pressed with
  | false => exact iff_of_false h Bool.false_ne_true
  | true => exact iff_of_true rfl rfl

theorem bgcolor_ne : colorsInit.clear ≠ COLOR_CYAN_IDX ∧ colorsInit.switch ≠ COLOR_CYAN_IDX := by
  decide

/-- What a call does, by where its point falls. -/
theorem handle_clear (h : region cfg p = .clear) :
    buttonHandle cfg b.touch p.1 p.2 =
      if b.touch.clear_press && cfg.tpActivated then
        ({ b.touch with clear_press := false }, [.trackClear, .clearRedraw false])
      else ({ b.touch with clear_press := true }, [.clearRedraw true]) := by
  rw [region] at h
  rw [buttonHandle]
  split at h
  · next hc => rw [if_pos hc]
  · split at h
    · cases h
    · cases h

theorem handle_switch (h : region cfg p = .switch) :
    buttonHandle cfg b.touch p.1 p.2 =
      ({ b.touch with switch_press := !b.touch.switch_press },
        [.switchRedraw !b.touch.switch_press]) := by
  rw [region] at h
  rw [buttonHandle]
  split at h
  · cases h
  · next hc =>
    rw [if_neg hc]
    split at h
    · next hs =>
      rw [if_pos hs]
      cases b.touch.switch_press <;> rfl
    · cases h

theorem handle_elsewhere (h : region cfg p = .elsewhere) :
    buttonHandle cfg b.touch p.1 p.2 =
      ({ b.touch with switch_press := false, clear_press := false }, []) := by
  rw [region] at h
  rw [buttonHandle]
  split at h
  · cases h
  · next hc =>
    rw [if_neg hc]
    split at h
    · cases h
    · next hs => rw [if_neg hs]

/-- In a button the flag and the colour change together. -/
theorem Buttons.Shown.button (h : b.Shown) (hp : region cfg p ≠ .elsewhere) :
    (b.handle cfg p).Shown := by
  cases hr : region cfg p with
  | elsewhere => exact absurd hr hp
  | switch =>
    rw [Buttons.handle, handle_switch hr]
    exact ⟨h.clear, pressColor_iff bgcolor_ne.2 _⟩
  | clear =>
    rw [Buttons.handle, handle_clear hr]
    by_cases hpress : (b.touch.clear_press && cfg.tpActivated) = true
    · rw [if_pos hpress]
      exact ⟨pressColor_iff bgcolor_ne.1 false, h.switch⟩
    · rw [if_neg hpress]
      exact ⟨pressColor_iff bgcolor_ne.1 true, h.switch⟩

/-- Outside both the colours are kept and the flags dropped. -/
theorem Buttons.Shown.elsewhere (h : b.Shown) (hp : region cfg p = .elsewhere) :
    (b.handle cfg p).Shown ↔ b.touch.clear_press = false ∧ b.touch.switch_press = false := by
  have hdone : b.handle cfg p =
      ⟨{ b.touch with switch_press := false, clear_press := false }, b.colors⟩ := by
    rw [Buttons.handle, handle_elsewhere hp]
    rfl
  rw [hdone]
  refine ⟨?_, ?_⟩
  · intro h'
    have hclear := h.clear.symm.trans h'.clear
    have hswitch := h.switch.symm.trans h'.switch
    simpa using And.intro hclear hswitch
  · rintro ⟨hclear, hswitch⟩
    refine ⟨?_, ?_⟩
    · show b.colors.clear = COLOR_CYAN_IDX ↔ false = true
      rw [h.clear, hclear]
    · show b.colors.switch = COLOR_CYAN_IDX ↔ false = true
      rw [h.switch, hswitch]

/-- The track is cleared by a point in the clear button whose flag is set. -/
theorem trackClear_iff : .trackClear ∈ (buttonHandle cfg b.touch p.1 p.2).2 ↔
    cfg.tpActivated = true ∧ region cfg p = .clear ∧ b.touch.clear_press = true := by
  cases hr : region cfg p with
  | elsewhere =>
    rw [handle_elsewhere hr]
    simp
  | switch =>
    rw [handle_switch hr]
    simp
  | clear =>
    rw [handle_clear hr]
    cases b.touch.clear_press <;> cases cfg.tpActivated <;> simp

/-! ## Runs -/

theorem buttonsRun_snoc (cfg : TouchConfig) (pre : List (Int × Int)) (p : Int × Int) :
    buttonsRun cfg (pre ++ [p]) = (buttonsRun cfg pre).handle cfg p := by
  rw [buttonsRun, List.foldl_append]
  rfl

/-- While the flag of the clear button is set, the last point fell in one of the buttons. -/
theorem clear_press_last (cfg : TouchConfig) (pre : List (Int × Int))
    (h : (buttonsRun cfg pre).touch.clear_press = true) :
    ∃ q, pre.getLast? = some q ∧ region cfg q ≠ .elsewhere := by
  cases pre using List.reverseRecOn with
  | nil => cases h
  | append_singleton pre q =>
    refine ⟨q, List.getLast?_concat, fun hq => ?_⟩
    rw [buttonsRun_snoc, Buttons.handle, handle_elsewhere hq] at h
    cases h

theorem buttonsInit_shown : buttonsInit.Shown := by
  refine ⟨?_, ?_⟩ <;> decide

/-- One call keeps to the protocol just when it is fine. -/
theorem callKept_iff {pre : List (Int × Int)} (h : (buttonsRun cfg pre).Shown) :
    CallKept cfg pre p ↔ CallFine cfg pre p := by
  refine ⟨?_, ?_⟩
  · intro hkept
    refine ⟨fun hp => ?_, fun htp hp hpress q hq => ?_⟩
    · have hshown := hkept.shown
      rw [buttonsRun_snoc] at hshown
      exact (h.elsewhere hp).mp hshown
    · obtain ⟨-, q', hq', hclear⟩ := hkept.cleared (trackClear_iff.mpr ⟨htp, hp, hpress⟩)
      obtain rfl : q = q' := Option.some.inj (hq.symm.trans hq')
      rw [hclear]
      decide
  · intro hfine
    refine ⟨?_, fun hclear => ?_⟩
    · rw [buttonsRun_snoc]
      by_cases hp : region cfg p = .elsewhere
      · exact (h.elsewhere hp).mpr (hfine.elsewhere hp)
      · exact h.button hp
    · obtain ⟨htp, hp, hpress⟩ := trackClear_iff.mp hclear
      obtain ⟨q, hq, helse⟩ := clear_press_last cfg pre hpress
      have hswitch := hfine.clear htp hp hpress q hq
      refine ⟨hp, q, hq, ?_⟩
      cases hr : region cfg q with
      | clear => rfl
      | switch => exact absurd hr hswitch
      | elsewhere => exact absurd hr helse

theorem buttonsRun_shown {points : List (Int × Int)}
    (h : ∀ pre p post, points = pre ++ p :: post → CallKept cfg pre p) :
    (buttonsRun cfg points).Shown := by
  cases points using List.reverseRecOn with
  | nil => exact buttonsInit_shown
  | append_singleton points p => exact (h points p [] rfl).shown

/-- **Every call of a run keeps to the protocol just when every call is fine.** -/
theorem buttons_iff (cfg : TouchConfig) (points : List (Int × Int)) :
    (∀ pre p post, points = pre ++ p :: post → CallKept cfg pre p) ↔
      ∀ pre p post, points = pre ++ p :: post → CallFine cfg pre p := by
  induction points using List.reverseRecOn with
  | nil => simp
  | append_singleton points p ih =>
    rw [forall_split_snoc, forall_split_snoc, ← ih]
    exact and_congr_right fun hkept => callKept_iff (buttonsRun_shown hkept)

/-- Points inside the clear button, inside the switch button and outside both. -/
def inClear : Int × Int := (950, 20)
def inSwitch : Int × Int := (950, 70)
def outside : Int × Int := (100, 100)

/-- A press of the clear button and a point elsewhere leave its flag off and its colour on; and a
press of the clear button, one of the switch button and one of the clear button again clear the
track. -/
theorem buttons_apart :
    (¬ ∀ pre p post, [inClear, outside] = pre ++ p :: post → CallKept touchPanel pre p) ∧
      ¬ ∀ pre p post, [inClear, inSwitch, inClear] = pre ++ p :: post →
        CallKept touchPanel pre p := by
  refine ⟨?_, ?_⟩
  · intro h
    have hshown := (h [inClear] outside [] rfl).shown.clear
    revert hshown
    decide
  · intro h
    obtain ⟨-, q, hq, hclear⟩ := (h [inClear, inSwitch] inClear [] rfl).cleared (by decide)
    obtain rfl : inSwitch = q := Option.some.inj hq
    revert hclear
    decide

end Lichee.View

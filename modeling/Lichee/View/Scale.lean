import Mathlib.Data.List.Induction
import Lichee.Script.SwScript

/- The output scaling (`df_reflash_scn_win` of df_view.c), run at every poll of the display. A
   poll that switches the output takes its scale from the script, sets it to 100 where it is not
   a percentage from 50 on, and passes it to the mode of the output. The scale starts as 100,
   but `script_fetch` clears it before it looks for the key, and only a key it finds is checked:
   without one the output is scaled to 0 (`scale_in_range_iff`). -/
namespace Lichee.View
open Base Script

/-! ## The display -/

/-- `disp_output_type`, and the -1 of `getCurrentOutputType`. -/
inductive OutputType where
  | none
  | lcd
  | tv
  | hdmi
  | vga
  | failed
  deriving DecidableEq, Repr

/-- What a poll reads from the display: `isHdmiPluged` and `getCurrentOutputType`. -/
structure Poll where
  hdmiPluged : Bool
  outputType : OutputType
  deriving DecidableEq, Repr

/-- What `df_reflash_scn_win` keeps from one poll to the next: `b_init` and
`disp_output_type_t`. -/
structure ScnWin where
  bInit : Bool
  outputType : OutputType
  deriving DecidableEq, Repr

def scnWinInit : ScnWin := ⟨true, .none⟩

/-- `switch_to`, where it is not `NONE`. -/
inductive SwitchTo where
  | cvbs
  | hdmi
  deriving DecidableEq, Repr

/-- A call of `setCvbsMode` with `CVBS_MOD_PAL`, or of `setHdmiMode` with
`HDMI_MOD_720P_60HZ`. -/
structure SetMode where
  output : SwitchTo
  wPercent : Nat
  hPercent : Nat
  deriving DecidableEq, Repr

/-- "check whether to update output mode" -/
def switchTo (bInit : Bool) (p : Poll) : Option SwitchTo :=
  if !bInit then
    if p.hdmiPluged ∧ p.outputType ≠ .hdmi then some .hdmi
    else if ¬ p.hdmiPluged ∧ p.outputType ≠ .tv then some .cvbs
    else none
  else if p.outputType = .hdmi then some .hdmi
  else some .cvbs

def SwitchTo.key : SwitchTo → List UInt8
  | .cvbs => ascii "tv_scale_factor"
  | .hdmi => ascii "hdmi_scale_factor"

/-- `cvbs_scale_factor`, `hdmi_scale_factor`: the word `script_fetch` leaves, checked if it has
found the key. -/
def scaleFactor (s : Attached) (key : List UInt8) : Option Nat := do
  let f ← scriptFetch s (ascii "df_view") key 1
  let factor ← word32 f.value
  if f.ret = 0 then
    if factor.toNat < 50 ∨ factor.toNat > 100 then some 100 else some factor.toNat
  else some factor.toNat

/-- `df_reflash_scn_win`, with the modes it sets. -/
def dfReflashScnWin (s : Attached) (t : ScnWin) (p : Poll) : Option (ScnWin × List SetMode) :=
  let t := { t with outputType := p.outputType }
  if p.outputType = .lcd then some (t, [])
  else
    let out := switchTo t.bInit p
    let t := { t with bInit := false }
    match out with
    | none => some (t, [])
    | some out => do
      let factor ← scaleFactor s out.key
      some (t, [⟨out, factor, factor⟩])

/-! ## Runs -/

/-- The variables after a poll, whatever the script says. -/
def ScnWin.next (t : ScnWin) (p : Poll) : ScnWin :=
  ⟨if p.outputType = .lcd then t.bInit else false, p.outputType⟩

def scnRun (polls : List Poll) : ScnWin := polls.foldl ScnWin.next scnWinInit

def SetMode.InRange (m : SetMode) : Prop :=
  (50 ≤ m.wPercent ∧ m.wPercent ≤ 100) ∧ 50 ≤ m.hPercent ∧ m.hPercent ≤ 100

/-- The poll passes no percentage out of range. -/
def ScaledInRange (s : Attached) (t : ScnWin) (p : Poll) : Prop :=
  ∀ t' modes, dfReflashScnWin s t p = some (t', modes) → ∀ m ∈ modes, m.InRange

/-- Where the poll switches the output, the script has the scale of that output. -/
def ScaleGiven (img : List UInt8) (t : ScnWin) (p : Poll) : Prop :=
  p.outputType ≠ .lcd → ∀ out, switchTo t.bInit p = some out →
    (firstRecord (ascii "df_view") out.key (directory img)).isSome

section Poll
variable {s : Attached} {t : ScnWin} {p : Poll}

/-- A poll passes the scale of the output it switches to, twice. -/
theorem scaledInRange_iff : ScaledInRange s t p ↔
    (p.outputType ≠ .lcd → ∀ out, switchTo t.bInit p = some out →
      ∀ factor, scaleFactor s out.key = some factor → 50 ≤ factor ∧ factor ≤ 100) := by
  rw [ScaledInRange, dfReflashScnWin]
  by_cases hlcd : p.outputType = .lcd
  · rw [if_pos hlcd]
    refine ⟨?_, ?_⟩
    · intro _ hne
      exact absurd hlcd hne
    · intro _ t' modes h m hm
      cases h
      cases hm
  · rw [if_neg hlcd]
    dsimp only
    cases hto : switchTo t.bInit p with
    | none =>
      refine ⟨?_, ?_⟩
      · intro _ _ out hout
        cases hout
      · intro _ t' modes h m hm
        cases h
        cases hm
    | some out =>
      refine ⟨?_, ?_⟩
      · intro h _ out' hout factor hfactor
        cases hout
        -- one factor is passed for both directions
        have hmode := h ⟨false, p.outputType⟩ [⟨out, factor, factor⟩]
          (by simp [hfactor]) ⟨out, factor, factor⟩ (List.mem_singleton_self _)
        exact hmode.1
      · intro h t' modes hmodes m hm
        obtain ⟨factor, hfactor, hdone⟩ := Option.bind_eq_some_iff.mp hmodes
        cases hdone
        cases List.mem_singleton.mp hm
        have hrange := h hlcd out rfl factor hfactor
        exact ⟨hrange, hrange⟩

/-- The scale of a key is in range just when the script has the key. -/
theorem scaleFactor_range {img : List UInt8} {n : Nat} (himg : Tabled img n) {key : List UInt8}
    (hkey : key.length ≤ 31) :
    (∀ factor, scaleFactor ⟨img, n⟩ key = some factor → 50 ≤ factor ∧ factor ≤ 100) ↔
      (firstRecord (ascii "df_view") key (directory img)).isSome := by
  have hfetch : scriptFetch ⟨img, n⟩ (ascii "df_view") key 1 =
      fetchedFrom img 1 (firstRecord (ascii "df_view") key (directory img)) := by
    rw [scriptFetch_record, fetchedRecord_directory himg (by decide) hkey]
    rfl
  rw [scaleFactor, hfetch]
  cases firstRecord (ascii "df_view") key (directory img) with
  | none =>
    refine ⟨?_, ?_⟩
    · intro h
      have hzero := h 0 rfl
      omega
    · intro h
      cases h
  | some addr =>
    refine ⟨fun _ => rfl, fun _ factor h => ?_⟩
    simp only [fetchedFrom, Option.bind_eq_bind, Option.bind_eq_some_iff,
      Option.map_eq_some_iff] at h
    obtain ⟨f, ⟨value, -, rfl⟩, w, -, h⟩ := h
    rw [if_pos rfl] at h
    split at h
    · cases h
      omega
    · cases h
      omega

end Poll

theorem key_short (out : SwitchTo) : out.key.length ≤ 31 := by
  cases out <;> decide

/-- **On a compiled script every percentage passed in a run is in range just when every poll that
switches the output finds the scale of that output in the script.** -/
theorem scale_in_range_iff {b : ScriptBuf} {img : List UInt8} {s : Attached}
    (h : Compiles b img) (hs : initScript img = some s) (polls : List Poll) :
    (∀ pre p post, polls = pre ++ p :: post → ScaledInRange s (scnRun pre) p) ↔
      ∀ pre p post, polls = pre ++ p :: post → ScaleGiven img (scnRun pre) p := by
  obtain ⟨n, himg⟩ := compiles_tabled h
  have hcnt : toInt (.ofNat n) = n := toInt_ofNat (by have := himg.count; omega)
  obtain rfl : s = ⟨img, n⟩ := by
    simpa only [initScript, himg.head, Option.bind_eq_bind, Option.bind_some, hcnt,
      Option.some.injEq, eq_comm] using hs
  have hpoll : ∀ pre p, ScaledInRange ⟨img, n⟩ (scnRun pre) p ↔ ScaleGiven img (scnRun pre) p := by
    intro pre p
    rw [scaledInRange_iff, ScaleGiven]
    apply imp_congr_right
    intro _
    apply forall₂_congr
    intro out _
    exact scaleFactor_range himg (key_short out)
  refine ⟨?_, ?_⟩
  · intro hin pre p post hsplit
    exact (hpoll pre p).mp (hin pre p post hsplit)
  · intro hgiven pre p post hsplit
    exact (hpoll pre p).mpr (hgiven pre p post hsplit)

/-- A script with the scale of the TV output, which the first poll switches to. -/
theorem scale_in_range_iff_tv : ∃ img s,
    Compiles ⟨ascii "[df_view]\ntv_scale_factor=80\n", 0, [0]⟩ img ∧ initScript img = some s ∧
      ∀ pre p post, [⟨false, .tv⟩] = pre ++ p :: post → ScaledInRange s (scnRun pre) p := by
  have hrun : ((parseScript 2 ⟨ascii "[df_view]\ntv_scale_factor=80\n", 0, [0]⟩).bind
      Except.toOption).map (fun img => ((initScript img).isSome,
        (firstRecord (ascii "df_view") SwitchTo.cvbs.key (directory img)).isSome)) =
      some (true, true) := by decide +kernel
  obtain ⟨img, himg, hpair⟩ := Option.map_eq_some_iff.mp hrun
  obtain ⟨hinit, hkey⟩ := Prod.mk.inj hpair
  obtain ⟨s, hs⟩ := Option.isSome_iff_exists.mp hinit
  refine ⟨img, s, compiles_of_run himg, hs, ?_⟩
  apply (scale_in_range_iff (compiles_of_run himg) hs _).mpr
  intro pre p post hsplit
  cases pre with
  | nil =>
    obtain ⟨rfl, -⟩ := List.cons.inj hsplit
    intro _ out hout
    obtain rfl : SwitchTo.cvbs = out := Option.some.inj hout
    exact hkey
  | cons q pre =>
    have hnil := (List.cons.inj hsplit).2
    simp at hnil

/-- Without the key the first poll that switches to the TV output scales it to 0. -/
theorem scale_out_of_range : ∃ img s, Compiles ⟨ascii "[a]\nk=1\n", 0, [0]⟩ img ∧
    initScript img = some s ∧ ¬ ∀ pre p post, [⟨false, .tv⟩] = pre ++ p :: post →
      ScaledInRange s (scnRun pre) p := by
  have hrun : ((parseScript 2 ⟨ascii "[a]\nk=1\n", 0, [0]⟩).bind Except.toOption).map
      (fun img => (initScript img).map fun s => scaleFactor s SwitchTo.cvbs.key) =
        some (some (some 0)) := by decide +kernel
  obtain ⟨img, himg, hs⟩ := Option.map_eq_some_iff.mp hrun
  obtain ⟨s, hs, hfactor⟩ := Option.map_eq_some_iff.mp hs
  refine ⟨img, s, compiles_of_run himg, hs, fun h => ?_⟩
  have hzero := scaledInRange_iff.mp (h [] ⟨false, .tv⟩ [] rfl) (by decide) .cvbs rfl 0 hfactor
  omega

end Lichee.View

import Lichee.Bluetooth.Commands
import Lichee.Bluetooth.FinalPatch

/- The download at the end of an attach. Read off the lines written, each command once however
   often a handler wrote it again, a run that attaches the controller has asked its questions and
   then sent the patch that `rtk_get_final_patch` made, whole and in order (`attach_downloads`).
   The patch is padded so that the reliable packets of the attach are a multiple of eight in all,
   for a controller that begins to count anew with its patch. The padding counts a change of the
   speed whenever there is a patch, although a controller without a rate in its config file is
   asked for none: the number of the next packet is then 7 (`attach_realigns`). -/
namespace Lichee.Bluetooth
open Base

/-! ## The count in a run -/

/-- The rate of the config file: 0 if it has none. -/
def Board.rate (b : Board) : Option UInt32 :=
  match b.rtkGetBtConfig with
  | some (.ok found) => some found.baudrate
  | _ => none

/-- The questions: for the first version, for the second if `rom`, and for the change of the speed
if there is a rate. -/
def questions (rom : Bool) (rate : UInt32) : List (List UInt8) :=
  readLmpVersionCmd :: ((if rom then [readRomVersionCmd] else []) ++
    if rate = 0 then [] else [changeSpeedCmd rate])

/-- Before the download: the questions have been asked, and nothing else has been sent. -/
structure Asking (h : Hw) (rom : Bool) (rate : UInt32) : Prop where
  number : h.msgqTxseq = Fin.ofNat 8 (1 + rom.toNat + (decide (rate ≠ 0)).toNat)
  commands : once (commands h.log) = questions rom rate
  hci : h.hciVersionCmdState.sent = true
  rom : rom = true → h.romVersionCmdState.sent = true

/-- In the download of `buf`, of which `n` packets of `t` and one have been sent. -/
structure Sending (h : Hw) (rom : Bool) (rate : UInt32) (buf : List UInt8) (t n : Nat) :
    Prop where
  number : h.msgqTxseq = Fin.ofNat 8 (1 + rom.toNat + (decide (rate ≠ 0)).toNat + n)
  commands : once (commands h.log) = questions rom rate ++
    (List.range n).map fun i =>
      patchPayload (indexOf t i, blockOf buf ((buf.length - 1) / 252) i)
  pos : 0 < buf.length
  max : buf.length ≤ RTK_PATCH_LENGTH_MAX
  total : t = (buf.length - 1) / 252 +
    (8 - ((buf.length - 1) / 252 + 1 + (2 + h.romVersionCmdState.sent.toNat)) % 8) % 8
  rank : 3 ≤ h.linkEstabState.rank
  rom : rom = true → h.romVersionCmdState.sent = true

theorem Asking.idle {h h' : Hw} {rom : Bool} {rate : UInt32} (ha : Asking h rom rate)
    (hi : Idle h h') : Asking h' rom rate :=
  ⟨hi.number.trans ha.number, hi.commands.trans ha.commands, hi.hci ha.hci,
    fun hr => hi.rom (ha.rom hr)⟩

/-- A packet of a download is no question. -/
theorem patchPayload_ne_question (p : UInt8 × List UInt8) (rom : Bool) (rate : UInt32) :
    patchPayload p ∉ questions rom rate := by
  cases rom <;> by_cases h0 : rate = 0 <;>
    simp [questions, patchPayload, readLmpVersionCmd, readRomVersionCmd, changeSpeedCmd, h0]

theorem patchPayload_index {p q : UInt8 × List UInt8} (h : patchPayload p = patchPayload q) :
    p.1 = q.1 := by
  simp only [patchPayload, List.cons_append, List.nil_append, List.cons.injEq, true_and] at h
  exact h.2.1

section Sending
variable {h h' : Hw} {rom : Bool} {rate : UInt32} {buf : List UInt8} {t n : Nat}

theorem Sending.idle (hs : Sending h rom rate buf t n) (hi : Idle h h') :
    Sending h' rom rate buf t n := by
  have hne : h.linkEstabState ≠ .init := by
    intro hinit
    have := hs.rank
    rw [hinit] at this
    exact absurd this (by decide)
  have hsame := hi.asleep hne
  refine { hs with
    number := hi.number.trans hs.number
    commands := hi.commands.trans hs.commands
    total := ?_
    rank := hs.rank.trans hi.rank
    rom := fun hr => hi.rom (hs.rom hr) }
  rw [hsame]
  exact hs.total

theorem Sending.splits (hs : Sending h rom rate buf t n) :
    Splits buf ((buf.length - 1) / 252) t := by
  have hrom := Bool.toNat_le h.romVersionCmdState.sent
  have hmax : buf.length ≤ 24576 := hs.max
  have hpos := hs.pos
  have htotal := hs.total
  refine ⟨by omega, by omega, ?_, ?_⟩
  · show _ ≤ 252 * _
    omega
  · show 252 * _ < _
    omega

/-- The packet after `n` of them is sent. -/
theorem Sending.send {d : Download} (hs : Sending h rom rate buf t n)
    (hd : LoopAt buf ((buf.length - 1) / 252) t d n) (hn : n ≤ t) (hsend : d.send h = .ok h') :
    Sending h' rom rate buf t (n + 1) := by
  have hlog := hd.commands hn hs.splits hsend
  have hnew : patchPayload (indexOf t n, blockOf buf ((buf.length - 1) / 252) n) ∉
      once (Bluetooth.commands h.log) := by
    rw [hs.commands, List.mem_append, List.mem_map]
    rintro (hq | ⟨i, hi, heq⟩)
    · exact patchPayload_ne_question _ _ _ hq
    · rw [List.mem_range] at hi
      have hidx : indexOf t i = indexOf t n := patchPayload_index heq
      have hi' := (indexOf_fields hs.splits.max (by omega : i ≤ t)).1
      have hn' := (indexOf_fields hs.splits.max hn).1
      rw [hidx, hn'] at hi'
      omega
  obtain ⟨nskb, rfl, -⟩ := hciDownloadPatch_ok hsend
  refine { hs with number := ?_, commands := ?_ }
  · show h.msgqTxseq + 1 = _
    rw [hs.number]
    simp only [Fin.ext_iff, Fin.val_add, Fin.ofNat]
    omega
  · rw [hlog, once_next hnew, hs.commands, List.append_assoc, List.range_succ, List.map_append]
    rfl

end Sending

namespace Attach
variable {freed : Hw → List UInt8 → UInt8} {b : Board} {s s' : Attach} {rom : Bool}

/-- What has been sent, where the program is; `rom` says whether it has asked for the second
version. -/
def Aligned (b : Board) (rom : Bool) (s : Attach) : Prop :=
  match s.pc with
  | .sync | .config => s.hw.msgqTxseq = 0 ∧ once (commands s.hw.log) = [] ∧ rom = false
  | .lmpVersion => b.rate = some s.baudrate ∧ Asking s.hw false 0 ∧ rom = false
  | .eversion => b.rate = some s.baudrate ∧ Asking s.hw true 0 ∧ rom = true
  | .changeSpeed => b.rate = some s.baudrate ∧ s.baudrate ≠ 0 ∧ Asking s.hw rom s.baudrate ∧
      (s.totalBuf.getD []).length ≤ RTK_PATCH_LENGTH_MAX
  | .patch d => ∃ rate buf t n, b.rate = some rate ∧ s.totalBuf = some buf ∧
      Sending s.hw rom rate buf t (n + 1) ∧ n ≤ t ∧ LoopAt buf ((buf.length - 1) / 252) t d n
  | .returned true => ∃ rate, b.rate = some rate ∧
      (s.totalBuf.getD [] = [] ∧ once (commands s.hw.log) = questions rom rate ∨
      ∃ buf t, s.totalBuf = some buf ∧ Sending s.hw rom rate buf t (t + 1))
  | .returned false | .timedOut _ | .ended => True

theorem aligned_failed (hpc : s.pc = .returned false) : Aligned b rom s := by
  unfold Aligned
  rw [hpc]
  trivial

/-- What sends no command keeps it, in a loop. -/
theorem Aligned.idle (ha : Aligned b rom s) {h : Hw} (hi : Idle s.hw h) (a : Option Alarm)
    (l : List UInt8) (r : Alarm → Nat) :
    Aligned b rom { s with hw := h, alarm := a, ptr := l, retries := r } := by
  unfold Aligned at ha ⊢
  cases hpc : s.pc with
  | sync =>
    rw [hpc] at ha
    exact ⟨hi.number.trans ha.1, hi.commands.trans ha.2.1, ha.2.2⟩
  | config =>
    rw [hpc] at ha
    exact ⟨hi.number.trans ha.1, hi.commands.trans ha.2.1, ha.2.2⟩
  | lmpVersion =>
    rw [hpc] at ha
    exact ⟨ha.1, ha.2.1.idle hi, ha.2.2⟩
  | eversion =>
    rw [hpc] at ha
    exact ⟨ha.1, ha.2.1.idle hi, ha.2.2⟩
  | changeSpeed =>
    rw [hpc] at ha
    obtain ⟨hrate, hb, hask, hmax⟩ := ha
    exact ⟨hrate, hb, hask.idle hi, hmax⟩
  | patch d =>
    rw [hpc] at ha
    obtain ⟨rate, buf, t, n, hrate, hbuf, hs, hn, hd⟩ := ha
    exact ⟨rate, buf, t, n, hrate, hbuf, hs.idle hi, hn, hd⟩
  | returned ok =>
    rw [hpc] at ha
    cases ok with
    | false => trivial
    | true =>
      obtain ⟨rate, hrate, hend⟩ := ha
      refine ⟨rate, hrate, hend.imp ?_ ?_⟩
      · rintro ⟨hempty, hasked⟩
        exact ⟨hempty, hi.commands.trans hasked⟩
      · rintro ⟨buf, t, hbuf, hs⟩
        exact ⟨buf, t, hbuf, hs.idle hi⟩
  | timedOut a => trivial
  | ended => trivial

/-! ### From loop to loop -/

theorem download_aligned {d : Download} {rate : UInt32} {buf : List UInt8} {t n : Nat}
    (hok : download d s = .ok s') (hrate : b.rate = some rate) (hbuf : s.totalBuf = some buf)
    (hs : Sending s.hw rom rate buf t n) (hn : n ≤ t + 1)
    (hd : LoopAt buf ((buf.length - 1) / 252) t d n) : Aligned b rom s' := by
  unfold download at hok
  split at hok
  · next hmore =>
    obtain ⟨h, hsend, hok⟩ := bind_eq_ok.mp hok
    cases hok
    have hle : n ≤ t := by
      rw [Download.more, hd.pos, hd.total] at hmore
      exact hmore
    exact ⟨rate, buf, t, n, hrate, hbuf, hs.send hd hle hsend, hle, hd⟩
  · next hmore =>
    obtain ⟨h, hack, hok⟩ := bind_eq_ok.mp hok
    cases hok
    have hlast : n = t + 1 := by
      rw [Download.more, hd.pos, hd.total] at hmore
      omega
    subst hlast
    exact ⟨rate, hrate, .inr ⟨buf, t, hbuf, hs.idle (ack_idle hack)⟩⟩

theorem setFlowControl_aligned {rate : UInt32} (hok : setFlowControl b s = .ok s')
    (hrate : b.rate = some rate) (hb : s.baudrate ≠ 0)
    (hmax : (s.totalBuf.getD []).length ≤ RTK_PATCH_LENGTH_MAX)
    (hask : Asking s.hw rom rate) : Aligned b rom s' := by
  unfold setFlowControl at hok
  split at hok
  · cases hok
    exact aligned_failed rfl
  split at hok
  · next c cs hbuf =>
    have hlen : (c :: cs).length ≤ RTK_PATCH_LENGTH_MAX := by
      rw [hbuf] at hmax
      exact hmax
    have hpos : 0 < (c :: cs).length := Nat.zero_lt_succ _
    generalize hcs : c :: cs = buf at hok hbuf hlen hpos
    have hb' : decide (s.baudrate ≠ 0) = true := decide_eq_true hb
    rw [hb'] at hok
    obtain ⟨-, htot, -⟩ := start_counts s.hw buf true hpos hlen
    -- the change of the speed is counted, whether it was sent or not
    have hcmds : iCmdSentNum s.hw true = 2 + s.hw.romVersionCmdState.sent.toNat := by
      rw [iCmdSentNum, hask.hci]
      show 1 + _ + 1 = _
      omega
    rw [hcmds] at htot
    have hsending : Sending (s.hw.patchLink.counting (.start s.hw buf true)) rom rate buf
        (Download.start s.hw buf true).iTotalIndex.toNat 0 :=
      ⟨hask.number, hask.commands.trans (List.append_nil _).symm, hpos, hlen, htot, Nat.le_refl 3,
        hask.rom⟩
    exact download_aligned hok hrate hbuf hsending (Nat.zero_le _)
      (start_loopAt s.hw buf true hpos hlen)
  · next hnone =>
    cases hok
    refine ⟨rate, hrate, .inl ⟨?_, hask.commands⟩⟩
    show s.totalBuf.getD [] = []
    cases hbuf : s.totalBuf with
    | none => rfl
    | some buf =>
      cases buf with
      | nil => rfl
      | cons c cs => exact absurd hbuf (hnone c cs)

/-- No speed has the number 0. -/
theorem uartSpeedToRtkSpeed_ne_zero (speed : Int) : uartSpeedToRtkSpeed speed ≠ 0 := by
  have hall : ∀ e ∈ baudrates, e.1 ≠ 0 := by decide
  unfold uartSpeedToRtkSpeed
  cases hfind : baudrates.find? fun e => e.2 == speed with
  | none => decide
  | some e => exact hall e (List.mem_of_find?_eq_some hfind)

/-- A command that is sent is counted. -/
theorem asks_number {cmd : List UInt8} {pc : Pc} {a : Alarm} (hok : asks s cmd pc a = .ok s')
    (hlen : cmd.length ≤ 4095) (hnew : cmd ∉ once (commands s.hw.log)) :
    ∃ h, s' = { s with hw := h, pc := pc, alarm := some a } ∧
      h.msgqTxseq = s.hw.msgqTxseq + 1 ∧
      once (commands h.log) = once (commands s.hw.log) ++ [cmd] ∧
      h.romVersionCmdState = s.hw.romVersionCmdState ∧
      h.hciVersionCmdState = s.hw.hciVersionCmdState := by
  obtain ⟨h, hw, rfl⟩ := asks_ok hok
  have hlog := (command_commands hlen hw).1
  obtain ⟨rel, nskb, hrel, rfl, -⟩ := writePacket_ok hw
  cases hrel
  exact ⟨_, rfl, rfl, by rw [hlog, once_next hnew], rfl, rfl⟩

theorem changeBaudrate_aligned {total : Option (List UInt8)}
    (hok : changeBaudrate b s total = .ok s') (hrate : b.rate = some s.baudrate)
    (hask : Asking s.hw rom 0) : Aligned b rom s' := by
  unfold changeBaudrate at hok
  split at hok
  · cases hok
    exact aligned_failed rfl
  next hmax =>
  have hmax' : (total.getD []).length ≤ RTK_PATCH_LENGTH_MAX := Nat.not_lt.mp hmax
  split at hok
  · next h0 =>
    refine setFlowControl_aligned hok hrate (uartSpeedToRtkSpeed_ne_zero b.speed) hmax' ?_
    rw [h0]
    exact hask
  · next hne =>
    have hnew : changeSpeedCmd s.baudrate ∉ once (commands s.hw.log) := by
      rw [hask.commands]
      cases rom <;> simp [questions, changeSpeedCmd, readLmpVersionCmd, readRomVersionCmd]
    obtain ⟨h, rfl, hnum, hlog, hrom, hhci⟩ := asks_number hok (Nat.le_of_ble_eq_true rfl) hnew
    refine ⟨hrate, hne, ⟨?_, ?_, ?_, ?_⟩, hmax'⟩
    · show h.msgqTxseq = Fin.ofNat 8 (1 + rom.toNat + (decide (s.baudrate ≠ 0)).toNat)
      rw [hnum, hask.number, decide_eq_true hne]
      cases rom <;> rfl
    · refine hlog.trans ?_
      rw [hask.commands]
      show _ = questions rom s.baudrate
      cases rom <;> simp [questions, hne]
    · rw [hhci]
      exact hask.hci
    · rw [hrom]
      exact hask.rom

theorem finalPatch_aligned {proto : Proto} (hok : finalPatch b proto s = .ok s')
    (hrate : b.rate = some s.baudrate) (hask : Asking s.hw rom 0) : Aligned b rom s' := by
  unfold finalPatch at hok
  split at hok
  · exact changeBaudrate_aligned hok hrate hask
  · cases hok
    trivial

theorem afterLmpVersion_aligned (hok : afterLmpVersion b s = .ok s')
    (hrate : b.rate = some s.baudrate) (hask : Asking s.hw false 0) :
    Aligned b false s' ∨ s'.pc = .eversion ∧ Aligned b true s' := by
  unfold afterLmpVersion at hok
  split at hok
  · exact .inl (finalPatch_aligned hok hrate hask)
  · obtain ⟨t, ht, hok⟩ := bind_eq_ok.mp hok
    cases hok
    have hnew : readRomVersionCmd ∉ once (commands s.hw.log) := by
      rw [hask.commands]
      decide
    obtain ⟨h, rfl, hnum, hlog, -, hhci⟩ := asks_number ht (Nat.le_of_ble_eq_true rfl) hnew
    refine .inr ⟨rfl, hrate, ⟨?_, ?_, ?_, fun _ => rfl⟩, rfl⟩
    · exact hnum.trans (by rw [hask.number]; rfl)
    · exact hlog.trans (by rw [hask.commands]; rfl)
    · show h.hciVersionCmdState.sent = true
      rw [hhci]
      exact hask.hci

theorem afterChangeSpeed_aligned (hok : afterChangeSpeed b s = .ok s')
    (hrate : b.rate = some s.baudrate) (hb : s.baudrate ≠ 0)
    (hmax : (s.totalBuf.getD []).length ≤ RTK_PATCH_LENGTH_MAX)
    (hask : Asking s.hw rom s.baudrate) : Aligned b rom s' := by
  unfold afterChangeSpeed at hok
  split at hok
  · exact setFlowControl_aligned hok hrate hb hmax hask
  · cases hok
    exact aligned_failed rfl

theorem afterConfig_aligned (hok : afterConfig b s = .ok s') (hnum : s.hw.msgqTxseq = 0)
    (hnone : once (commands s.hw.log) = []) : Aligned b false s' := by
  unfold afterConfig at hok
  obtain ⟨h, hack, hok⟩ := bind_eq_ok.mp hok
  have hi := ack_idle hack
  have hnone' : once (commands h.log) = [] := hi.commands.trans hnone
  dsimp only at hok
  split at hok
  · next found hfound =>
    split at hok
    · obtain ⟨t, ht, hok⟩ := bind_eq_ok.mp hok
      cases hok
      have hnew : readLmpVersionCmd ∉ once (commands h.log) := by
        rw [hnone']
        exact List.not_mem_nil
      obtain ⟨h', rfl, hnum', hlog, -, -⟩ := asks_number ht (Nat.le_of_ble_eq_true rfl) hnew
      have hrate : b.rate = some found.baudrate := by
        rw [Board.rate, hfound]
      refine ⟨hrate, ⟨?_, ?_, rfl, fun hr => absurd hr Bool.false_ne_true⟩, rfl⟩
      · exact hnum'.trans (by rw [hi.number, hnum]; rfl)
      · exact hlog.trans (by rw [hnone']; rfl)
    · cases hok
      exact aligned_failed rfl
  · cases hok
    trivial

theorem patternAlarm_idle {a : Alarm} {p : List UInt8} (hp : a.pattern = some p)
    (hok : patternAlarm a p s = .ok s') :
    (∃ h r, Idle s.hw h ∧ s' = { s with hw := h, alarm := some a, retries := r }) ∨
      s'.pc = .timedOut a := by
  unfold patternAlarm at hok
  split at hok
  · obtain ⟨h, hw, hok⟩ := bind_eq_ok.mp hok
    cases hok
    exact .inl ⟨h, _, pattern_idle hp hw, rfl⟩
  · cases hok
    exact .inr rfl

theorem commandAlarm_idle (hk : LastKept s.hw) (a : Alarm) :
    (∃ h r, Idle s.hw h ∧ commandAlarm a s = { s with hw := h, alarm := some a, retries := r }) ∨
      (commandAlarm a s).pc = .timedOut a := by
  unfold commandAlarm
  split
  · exact .inl ⟨_, _, again_idle hk, rfl⟩
  · exact .inr rfl

/-- A handler sends no new command. -/
theorem run_idle {a : Alarm} (hk : LastKept s.hw) (hok : a.run s = .ok s') :
    (∃ h r, Idle s.hw h ∧ s' = { s with hw := h, alarm := some a, retries := r }) ∨
      s'.pc = .timedOut a := by
  cases a with
  | tsync => exact patternAlarm_idle rfl hok
  | tconf => exact patternAlarm_idle rfl hok
  | tinit =>
    cases hok
    unfold h5TinitSigAlarm
    split
    · split
      · exact .inl ⟨_, _, again_idle hk, rfl⟩
      · exact .inr rfl
    · exact .inr rfl
  | tpatch =>
    cases hok
    exact commandAlarm_idle hk .tpatch
  | eversion =>
    cases hok
    exact commandAlarm_idle hk .eversion
  | lmpVersion =>
    cases hok
    exact commandAlarm_idle hk .lmpVersion

theorem aligned_timedOut {a : Alarm} (hpc : s.pc = .timedOut a) : Aligned b rom s := by
  unfold Aligned
  rw [hpc]
  trivial

/-- Behind a loop: nothing more is asked, or the second version is. -/
theorem proceed_aligned (hok : s.proceed b = .ok s') (hrun : s.running = true)
    (ha : Aligned b rom s) : Aligned b rom s' ∨ s'.pc = .eversion ∧ Aligned b true s' := by
  unfold proceed at hok
  unfold running at hrun
  unfold Aligned at ha
  cases hpc : s.pc with
  | sync =>
    rw [hpc] at hok ha
    have hconf : patternAlarm .tconf h5confPattern { s.disarmed with pc := .config } = .ok s' := hok
    rcases patternAlarm_idle rfl hconf with ⟨h, r, hi, rfl⟩ | hend
    · exact .inl ⟨hi.number.trans ha.1, hi.commands.trans ha.2.1, ha.2.2⟩
    · exact .inl (aligned_timedOut hend)
  | config =>
    rw [hpc] at hok ha
    obtain ⟨hnum, hnone, rfl⟩ := ha
    exact .inl (afterConfig_aligned hok hnum hnone)
  | lmpVersion =>
    rw [hpc] at hok ha
    obtain ⟨hrate, hask, rfl⟩ := ha
    exact afterLmpVersion_aligned hok hrate hask
  | eversion =>
    rw [hpc] at hok ha
    obtain ⟨hrate, hask, rfl⟩ := ha
    exact .inl (finalPatch_aligned hok hrate hask)
  | changeSpeed =>
    rw [hpc] at hok ha
    obtain ⟨hrate, hb, hask, hmax⟩ := ha
    exact .inl (afterChangeSpeed_aligned hok hrate hb hmax hask)
  | patch d =>
    rw [hpc] at hok ha
    obtain ⟨rate, buf, t, n, hrate, hbuf, hs, hn, hd⟩ := ha
    exact .inl (download_aligned hok hrate hbuf hs (by omega) (hd.next hn hs.splits))
  | _ =>
    rw [hpc] at hrun
    cases hrun

/-- Where `read` failed. -/
theorem readFails_aligned (hok : s.readFails b = .ok s') (hrun : s.running = true)
    (ha : Aligned b rom s) : Aligned b rom s' ∨ s'.pc = .eversion ∧ Aligned b true s' := by
  unfold readFails at hok
  unfold running at hrun
  unfold Aligned at ha
  cases hpc : s.pc with
  | sync =>
    rw [hpc] at hok
    cases hok
    exact .inl (aligned_failed rfl)
  | config =>
    rw [hpc] at hok
    cases hok
    exact .inl (aligned_failed rfl)
  | lmpVersion =>
    rw [hpc] at hok ha
    obtain ⟨hrate, hask, rfl⟩ := ha
    exact afterLmpVersion_aligned hok hrate hask
  | eversion =>
    rw [hpc] at hok ha
    obtain ⟨hrate, hask, rfl⟩ := ha
    exact .inl (finalPatch_aligned hok hrate hask)
  | changeSpeed =>
    rw [hpc] at hok ha
    obtain ⟨hrate, hb, hask, hmax⟩ := ha
    exact .inl (afterChangeSpeed_aligned hok hrate hb hmax hask)
  | patch d =>
    rw [hpc] at hok
    cases hok
    exact .inl (aligned_failed rfl)
  | _ =>
    rw [hpc] at hrun
    cases hrun

theorem Step.aligned (hs : Sound s) (hk : LastKept s.hw) (hstep : Step freed b s s')
    (ha : Aligned b rom s) : Aligned b rom s' ∨ s'.pc = .eversion ∧ Aligned b true s' := by
  cases hstep with
  | alarm hrun harmed hok =>
    rcases run_idle hk hok with ⟨h, r, hi, rfl⟩ | hend
    · exact .inl (ha.idle hi _ _ _)
    · exact .inl (aligned_timedOut hend)
  | read chunk hptr hwait hlen => exact .inl (ha.idle (.refl s.hw) _ _ _)
  | readFails hptr hwait hok => exact readFails_aligned hok (running_of_waits hwait) ha
  | recv hrun hptr hok =>
    obtain ⟨byte, ptr, hl⟩ := List.exists_cons_of_ne_nil hptr
    rw [hl] at hok
    exact .inl (ha.idle (recv_idle hs.crc hok) _ _ _)
  | exits hrun hptr herr => exact .inl trivial
  | proceed hrun hptr hdone hok => exact proceed_aligned hok hrun ha

theorem Reachable.lastKept (hs : Reachable freed b s) : LastKept s.hw := by
  induction hs with
  | start hok =>
    obtain ⟨-, -, ⟨h, hw, hs⟩, -⟩ := start_ok hok
    rw [hs]
    refine LastKept.quiet (h := rtkInit) (fun nskb hn => ?_)
      (pattern_commands (a := .tsync) rfl hw).1 (.inl (pattern_commands (a := .tsync) rfl hw).2)
    cases hn
  | step hr hstep ih =>
    exact (hstep.keeps (P := fun h => h.useCrc = false ∧ LastKept h)
      (fun _ _ _ hact hh => ⟨hact.crc hh.1, hact.lastKept hh.1 hh.2⟩) hr.sound
      ⟨hr.sound.crc, ih⟩).2

theorem Reachable.aligned (hs : Reachable freed b s) : ∃ rom, Aligned b rom s := by
  induction hs with
  | @start s hok =>
    obtain ⟨hpc, -, ⟨h, hw, hs⟩, -⟩ := start_ok hok
    have hi := pattern_idle (a := .tsync) rfl hw
    refine ⟨false, ?_⟩
    unfold Aligned
    rw [hpc, hs]
    exact ⟨hi.number, hi.commands, rfl⟩
  | step hr hstep ih =>
    obtain ⟨rom, ha⟩ := ih
    rcases hstep.aligned hr.sound hr.lastKept ha with hsame | ⟨-, hasked⟩
    · exact ⟨rom, hsame⟩
    · exact ⟨true, hasked⟩

/-- The states of the runs in which the program has asked for the second version. -/
inductive Asked (freed : Hw → List UInt8 → UInt8) (b : Board) : Attach → Prop
  | here {s : Attach} (hs : Reachable freed b s) (hpc : s.pc = .eversion) : Asked freed b s
  | step {s s' : Attach} (hs : Asked freed b s) (hstep : Step freed b s s') : Asked freed b s'

theorem Asked.reachable (hs : Asked freed b s) : Reachable freed b s := by
  induction hs with
  | here hr hpc => exact hr
  | step _ hstep ih => exact ih.step hstep

theorem Asked.aligned (hs : Asked freed b s) : Aligned b true s := by
  induction hs with
  | @here s hr hpc =>
    obtain ⟨rom, ha⟩ := hr.aligned
    have hasked := ha
    unfold Aligned at hasked
    rw [hpc] at hasked
    rwa [hasked.2.2] at ha
  | step hr hstep ih =>
    rcases hstep.aligned hr.reachable.sound hr.reachable.lastKept ih with hsame | ⟨-, hasked⟩
    · exact hsame
    · exact hasked

end Attach

/-! ## What was sent -/

/-- The packets sent are the split of the buffer. -/
theorem Sending.split {h : Hw} {rom : Bool} {rate : UInt32} {buf : List UInt8} {t : Nat}
    (hs : Sending h rom rate buf t (t + 1)) :
    ∃ ps, once (Bluetooth.commands h.log) = questions rom rate ++ ps.map patchPayload ∧
      SplitPackets buf (2 + h.romVersionCmdState.sent.toNat) ps := by
  refine ⟨_, ?_, split_packets hs.pos rfl hs.total hs.splits.max⟩
  rw [hs.commands, List.map_map]
  rfl

/-- The next number, once the packets have been sent. -/
theorem Sending.realigned {h : Hw} {rom : Bool} {rate : UInt32} {buf : List UInt8} {t : Nat}
    (hs : Sending h rom rate buf t (t + 1)) (hrom : h.romVersionCmdState.sent = rom) :
    h.msgqTxseq = if rate = 0 then 7 else 0 := by
  have htotal := hs.total
  rw [hrom] at htotal
  rw [hs.number]
  by_cases h0 : rate = 0
  · rw [if_pos h0, h0]
    cases rom <;> simp [Fin.ext_iff, Fin.ofNat] at htotal ⊢ <;> omega
  · rw [if_neg h0, decide_eq_true h0]
    cases rom <;> simp [Fin.ext_iff, Fin.ofNat] at htotal ⊢ <;> omega

/-- Behind `greetMoves`: the first version is told, and each packet of the patch is answered. -/
def patchMoves : List Attach.Move :=
  [.chunk [0xc0, 0x00, 0xe4, 0x00, 0x1b, 0x0e, 0x0c, 0x01, 0x01, 0x10, 0x00, 0, 0, 0, 0, 0],
    .chunk [0x00, 0x00, 0x12, 0xc0], .proceed] ++
  [0, 1, 2, 3, 4, 0x85].flatMap fun i =>
    [.chunk [0xc0, 0x00, 0x74, 0x00, 0x8b, 0x0e, 0x05, 0x01, 0x20, 0xfc, 0x00, i, 0xc0], .proceed]

/-- `rtk_init` has returned 0. -/
def Pc.attached : Pc → Bool
  | .returned ok => ok
  | _ => false

/-- Such a run attaches the controller: it is not asked for the second version, and the first packet
carries the image of one byte. -/
theorem patchMoves_attach : ∃ s : Attach, s.Reachable (fun _ _ => 0) bareBoard ∧
    s.pc = .returned true ∧ patchPayload (0, [0x51]) ∈ commands s.hw.log ∧
    s.hw.romVersionCmdState = .cmdNotSend := by
  have hend : (Attach.follow (fun _ _ => 0) bareBoard 40 (greetMoves ++ patchMoves)).map
      (fun s => (s.pc.attached,
        decide (patchPayload (0, [0x51]) ∈ commands s.hw.log), s.hw.romVersionCmdState)) =
      some (true, true, .cmdNotSend) := by
    decide +kernel
  obtain ⟨s, hs, hend⟩ := Option.map_eq_some_iff.mp hend
  simp only [Prod.mk.injEq] at hend
  obtain ⟨hpc, hsent, hrom⟩ := hend
  refine ⟨s, Attach.follow_reachable hs, ?_, of_decide_eq_true hsent, hrom⟩
  cases hr : s.pc with
  | returned ok =>
    rw [hr] at hpc
    exact congrArg Pc.returned hpc
  | _ =>
    rw [hr] at hpc
    cases hpc

/-- **The numbers behind the download.** A run that has downloaded a patch leaves the number 0 for
the next packet if the config file gives a rate, and 7 if it gives none: as long as the second
version was asked for, or no answer to that question has come in. -/
theorem attach_realigns (freed : Hw → List UInt8 → UInt8) {b : Board} {s : Attach}
    (hs : s.Reachable freed b) (hret : s.pc = .returned true) {p : UInt8 × List UInt8}
    (hsent : patchPayload p ∈ commands s.hw.log)
    (hrom : s.Asked freed b ∨ s.hw.romVersionCmdState = .cmdNotSend) :
    ∃ rate, b.rate = some rate ∧ s.hw.msgqTxseq = if rate = 0 then 7 else 0 := by
  have hfinal : ∃ rom, s.Aligned b rom ∧
      (rom = true ∨ s.hw.romVersionCmdState = .cmdNotSend) := by
    rcases hrom with hasked | hnone
    · exact ⟨true, hasked.aligned, .inl rfl⟩
    · obtain ⟨rom, ha⟩ := hs.aligned
      exact ⟨rom, ha, .inr hnone⟩
  obtain ⟨rom, ha, hrom⟩ := hfinal
  unfold Attach.Aligned at ha
  rw [hret] at ha
  obtain ⟨rate, hrate, ⟨-, hasked⟩ | ⟨buf, t, -, hs⟩⟩ := ha
  · rw [← mem_once, hasked] at hsent
    exact absurd hsent (patchPayload_ne_question _ rom rate)
  · refine ⟨rate, hrate, hs.realigned ?_⟩
    cases rom with
    | true => exact hs.rom rfl
    | false =>
      rcases hrom with hrom | hnot
      · cases hrom
      · rw [hnot]
        rfl

/-- Without a rate in a config file the next number is 7. -/
theorem attach_realigns_bare : ∃ s : Attach, s.Reachable (fun _ _ => 0) bareBoard ∧
    s.pc = .returned true ∧ s.hw.msgqTxseq = 7 := by
  obtain ⟨s, hr, hret, hsent, hrom⟩ := patchMoves_attach
  obtain ⟨rate, hrate, hnum⟩ := attach_realigns _ hr hret hsent (.inr hrom)
  cases hrate
  exact ⟨s, hr, hret, hnum⟩

end Lichee.Bluetooth

import Lichee.Bluetooth.ConfigFile
import Lichee.Bluetooth.Patch
import Lichee.Bluetooth.Reads
import Lichee.Bluetooth.Session

/- The attach of the controller on the three-wire path (`rtk_init` of hciattach_rtk.c). The program
   writes one pattern after the other until each is answered, asks the controller for its two
   versions, has it change its speed, and downloads the patch. It waits in six loops, which read
   and feed `h5_recv`; meanwhile a timer may end, whose handler writes again and counts, or gives
   up. A handler runs where the program reads or between two iterations of `h5_recv`; what stands
   between two loops is one step.

   The run begins once the port has its parity and ends where `rtk_init` returns. Memory is there
   when it is asked for; what the port and the files are like is a `Board`. -/
namespace Lichee.Bluetooth
open Base

abbrev H5_MAX_RETRY_COUNT : Nat := 40
abbrev READ_DATA_SIZE : Nat := 16

/-! ## The state -/

/-- The handlers of `SIGALRM`: `h5_tsync_sig_alarm`, `h5_tconf_sig_alarm`, `h5_tinit_sig_alarm`,
`h5_tpatch_sig_alarm`, `rtk_get_eversion_timeout` and `rtk_get_lmp_version_timeout`. -/
inductive Alarm
  | tsync | tconf | tinit | tpatch | eversion | lmpVersion
  deriving DecidableEq, Repr

/-- Where the program is: in one of its loops, or at its end. -/
inductive Pc
  /-- `rtk_init_h5`, until the first pattern is answered -/
  | sync
  /-- `rtk_init_h5`, until the second is -/
  | config
  /-- `rtk_get_lmp_version` -/
  | lmpVersion
  /-- `rtk_get_eversion` -/
  | eversion
  /-- `rtk_vendor_change_speed_h5` -/
  | changeSpeed
  /-- `hci_download_patch`, with the locals of `rtk_download_fw_config` before the packet -/
  | patch (d : Download)
  /-- `rtk_init` has returned 0, or -1 -/
  | returned (ok : Bool)
  /-- a handler has given up -/
  | timedOut (a : Alarm)
  /-- the receiver has ended the program, or an access outside a file -/
  | ended

/-- The program: `rtk_hw_cfg`, the rest of the chunk `h5_recv` is at, the timer if it is set with
the handler that is installed, and the `static` counter of each handler. -/
structure Attach where
  hw : Hw
  pc : Pc
  ptr : List UInt8
  alarm : Option Alarm
  retries : Alarm → Nat
  baudrate : UInt32
  hwFlowControl : Int
  finalSpeed : Int
  /-- `total_buf`, if `dl_fw_flag` is set -/
  totalBuf : Option (List UInt8)

/-- What the program finds: the two files, if they can be read, the speed it was started with, and
whether `set_speed` and `tcsetattr` succeed. -/
structure Board where
  configFile : Option (List UInt8)
  firmware : Option (List UInt8)
  speed : Int
  setSpeed : Bool
  tcsetattr : Bool

/-- `rtk_get_bt_config`: what the config file gives. Without one there is no rate. -/
def Board.rtkGetBtConfig (b : Board) : Option (Except Fault ConfigFound) :=
  match b.configFile with
  | none => some (.ok ⟨0, 0⟩)
  | some file => rtkParseConfigFile file 0

/-- `config_buf` -/
def Board.configBuf (b : Board) : List UInt8 := b.configFile.getD []

/-- `fw_buf` -/
def Board.fwBuf (b : Board) : List UInt8 := b.firmware.getD []

/-! ## Speeds -/

/-- `baudrates`: the controller's number of a speed, and the speed. -/
abbrev baudrates : List (UInt32 × Int) := [
  (0x0252C014, 115200),
  (0x0252C00A, 230400),
  (0x05F75004, 921600),
  (0x00005004, 1000000),
  (0x04928002, 1500000),
  (0x01128002, 1500000),
  (0x00005002, 2000000),
  (0x0000B001, 2500000),
  (0x04928001, 3000000),
  (0x052A6001, 3500000),
  (0x00005001, 4000000)]

/-- `rtk_speed_to_uart_speed` -/
def rtkSpeedToUartSpeed (rtkSpeed : UInt32) : Int :=
  ((baudrates.find? fun b => b.1 == rtkSpeed).map (·.2)).getD 115200

/-- `uart_speed_to_rtk_speed` -/
def uartSpeedToRtkSpeed (uartSpeed : Int) : UInt32 :=
  ((baudrates.find? fun b => b.2 == uartSpeed).map (·.1)).getD 0x701D

/-! ## Writing -/

/-- A packet is prepared, kept if it is a command, and written. -/
def writePacket (h : Hw) (data : List UInt8) (pktType : UInt8) (keep : Bool) :
    Except Crash Hw := do
  match ← h5PreparePkt h data pktType with
  | some (nskb, h) => .ok (h.sent nskb keep)
  | none => .error .noSkb

/-- The last command is written again, if there is one. -/
def Hw.writeAgain (h : Hw) : Hw :=
  match h.hostLastCmd with
  | some nskb => h.note (.wrote nskb.data)
  | none => h

/-- `h5conf` of `h5_tconf_sig_alarm` -/
def h5confPattern : List UInt8 := [0x03, 0xfc, 0x14]

/-- `read_rom_patch_cmd` of `rtk_get_lmp_version` -/
def readLmpVersionCmd : List UInt8 := [0x01, 0x10, 0x00]

/-- `read_rom_patch_cmd` of `rtk_get_eversion` -/
def readRomVersionCmd : List UInt8 := [0x6d, 0xfc, 0x00]

/-- `cmd` of `rtk_vendor_change_speed_h5` -/
def changeSpeedCmd (baudrate : UInt32) : List UInt8 :=
  [0x17, 0xfc, 4, baudrate.toUInt8, (baudrate >>> 8).toUInt8, (baudrate >>> 16).toUInt8,
    (baudrate >>> 24).toUInt8]

/-! ## The handlers -/

/-- A handler has counted, and has set its timer. -/
def Attach.retried (s : Attach) (a : Alarm) (h : Hw) : Attach :=
  { s with
    hw := h
    alarm := some a
    retries := fun b => if b = a then s.retries a + 1 else s.retries b }

/-- `exit(1)` of a handler. -/
def Attach.timesOut (s : Attach) (a : Alarm) : Attach :=
  { s with pc := .timedOut a, alarm := none }

/-- A handler that writes a pattern again. -/
def patternAlarm (a : Alarm) (pattern : List UInt8) (s : Attach) : Except Crash Attach :=
  if s.retries a < H5_MAX_RETRY_COUNT then do
    let h ← writePacket s.hw pattern H5_LINK_CTL_PKT false
    .ok (s.retried a h)
  else .ok (s.timesOut a)

/-- A handler that writes the last command again. -/
def commandAlarm (a : Alarm) (s : Attach) : Attach :=
  if s.retries a < H5_MAX_RETRY_COUNT then s.retried a s.hw.writeAgain else s.timesOut a

def h5TsyncSigAlarm (s : Attach) : Except Crash Attach := patternAlarm .tsync h5sync s
def h5TconfSigAlarm (s : Attach) : Except Crash Attach := patternAlarm .tconf h5confPattern s
def h5TpatchSigAlarm (s : Attach) : Attach := commandAlarm .tpatch s
def rtkGetEversionTimeout (s : Attach) : Attach := commandAlarm .eversion s
def rtkGetLmpVersionTimeout (s : Attach) : Attach := commandAlarm .lmpVersion s

/-- `h5_tinit_sig_alarm`, which gives up too if there is no last command. -/
def h5TinitSigAlarm (s : Attach) : Attach :=
  if s.retries .tinit < H5_MAX_RETRY_COUNT then
    if s.hw.hostLastCmd.isSome then s.retried .tinit s.hw.writeAgain
    else (s.retried .tinit s.hw).timesOut .tinit
  else s.timesOut .tinit

/-- The handler. -/
def Alarm.run (s : Attach) : Alarm → Except Crash Attach
  | .tsync => h5TsyncSigAlarm s
  | .tconf => h5TconfSigAlarm s
  | .tinit => .ok (h5TinitSigAlarm s)
  | .tpatch => .ok (h5TpatchSigAlarm s)
  | .eversion => .ok (rtkGetEversionTimeout s)
  | .lmpVersion => .ok (rtkGetLmpVersionTimeout s)

/-! ## Between the loops -/

namespace Attach

/-- `rtk_init` up to its first loop, the counters as the program starts with them. -/
def start : Except Crash Attach :=
  h5TsyncSigAlarm {
    hw := rtkInit
    pc := .sync
    ptr := []
    alarm := none
    retries := fun _ => 0
    baudrate := 0
    hwFlowControl := 0
    finalSpeed := 0
    totalBuf := none }

def returns (s : Attach) (ok : Bool) : Attach := { s with pc := .returned ok }

def ends (s : Attach) : Attach := { s with pc := .ended, alarm := none }

/-- A command is sent, and its answer awaited under a timer. -/
def asks (s : Attach) (cmd : List UInt8) (pc : Pc) (a : Alarm) : Except Crash Attach := do
  let h ← writePacket s.hw cmd HCI_COMMAND_PKT true
  .ok { s with hw := h, pc := pc, alarm := some a }

/-- The loop of `rtk_download_fw_config` up to the wait for the packet, or its end. -/
def download (d : Download) (s : Attach) : Except Crash Attach :=
  if d.more then do
    let h ← d.send s.hw
    .ok { s with hw := h, pc := .patch d, alarm := some .tpatch }
  else do
    let h ← rtkSendPureAckDown s.hw
    .ok ({ s with hw := h }.returns true)

/-- `rtk_config` from "hw flow control" on: the patch is downloaded, if there is one. -/
def setFlowControl (b : Board) (s : Attach) : Except Crash Attach :=
  if s.hwFlowControl ≠ 0 ∧ b.tcsetattr = false then .ok (s.returns false)
  else
    match s.totalBuf with
    | some (c :: cs) =>
      let d := Download.start s.hw (c :: cs) (s.baudrate ≠ 0)
      download d { s with hw := s.hw.patchLink.counting d }
    | _ => .ok (s.returns true)

/-- `rtk_config` behind `rtk_get_final_patch`. -/
def changeBaudrate (b : Board) (s : Attach) (total : Option (List UInt8)) : Except Crash Attach :=
  if RTK_PATCH_LENGTH_MAX < (total.getD []).length then .ok (s.returns false)
  else if s.baudrate = 0 then
    setFlowControl b { s with totalBuf := total, baudrate := uartSpeedToRtkSpeed b.speed }
  else
    asks { s with totalBuf := total, finalSpeed := rtkSpeedToUartSpeed s.baudrate }
      (changeSpeedCmd s.baudrate) .changeSpeed .tinit

/-- `rtk_get_final_patch` behind the questions, in the branch of a protocol. -/
def finalPatch (b : Board) (proto : Proto) (s : Attach) : Except Crash Attach :=
  match rtkGetFinalPatch proto b.fwBuf b.configBuf s.hw.lmpVersion s.hw.eversion with
  | some (.ok total) => changeBaudrate b s total
  | _ => .ok s.ends

/-- Behind `rtk_get_lmp_version`: the first of these controllers takes the image as it is, every
other one is asked for its second version. -/
def afterLmpVersion (b : Board) (s : Attach) : Except Crash Attach :=
  if s.hw.lmpVersion = ROM_LMP_8723a then finalPatch b .threeWire s
  else do
    let s ← asks s readRomVersionCmd .eversion .eversion
    .ok { s with hw := { s.hw with romVersionCmdState := .cmdHasSent } }

/-- Behind `rtk_vendor_change_speed_h5`. -/
def afterChangeSpeed (b : Board) (s : Attach) : Except Crash Attach :=
  if b.setSpeed then setFlowControl b s else .ok (s.returns false)

/-- Behind the second pattern: the end of `rtk_init_h5`, and `rtk_config` up to
`rtk_get_lmp_version`. -/
def afterConfig (b : Board) (s : Attach) : Except Crash Attach := do
  let h ← rtkSendPureAckDown s.hw
  let s := { s with
    hw := { h with romVersionCmdState := .cmdNotSend, hciVersionCmdState := .cmdNotSend } }
  match b.rtkGetBtConfig with
  | some (.ok found) =>
    let s := { s with baudrate := found.baudrate, hwFlowControl := found.hwFlowControl }
    match b.firmware with
    | some _ => do
      let s ← asks s readLmpVersionCmd .lmpVersion .lmpVersion
      .ok { s with hw := { s.hw with hciVersionCmdState := .cmdHasSent } }
    | none => .ok (s.returns false)
  | _ => .ok s.ends

/-- The timer is off. -/
def disarmed (s : Attach) : Attach := { s with alarm := none }

/-- From the end of a loop to the next. -/
def proceed (b : Board) (s : Attach) : Except Crash Attach :=
  match s.pc with
  | .sync => h5TconfSigAlarm { s.disarmed with pc := .config }
  | .config => afterConfig b s.disarmed
  | .lmpVersion => afterLmpVersion b s.disarmed
  | .eversion => finalPatch b .other s.disarmed
  | .changeSpeed => afterChangeSpeed b s.disarmed
  | .patch d => download d.next s.disarmed
  | .returned _ | .timedOut _ | .ended => .ok s

/-- From a `read` that failed to the next loop. The functions that ask for a version leave it at
that, as the caller of `rtk_vendor_change_speed_h5` does, and the timer stays set. -/
def readFails (b : Board) (s : Attach) : Except Crash Attach :=
  match s.pc with
  | .sync | .config => .ok (s.disarmed.returns false)
  | .lmpVersion => afterLmpVersion b s
  | .eversion => finalPatch b .other s
  | .changeSpeed => afterChangeSpeed b s
  | .patch _ => .ok (s.returns false)
  | .returned _ | .timedOut _ | .ended => .ok s

/-! ## Runs -/

/-- The condition of the loop the program is in. -/
def waits (s : Attach) : Bool :=
  match s.pc with
  | .sync => s.hw.linkEstabState == .sync
  | .config => s.hw.linkEstabState == .config
  | .lmpVersion => s.hw.hciVersionCmdState != .eventReceived
  | .eversion => s.hw.romVersionCmdState != .eventReceived
  | .changeSpeed => s.hw.linkEstabState == .init
  | .patch _ => s.hw.rxIndex != s.hw.txIndex.toNat
  | .returned _ | .timedOut _ | .ended => false

/-- The program is in one of its loops. -/
def running (s : Attach) : Bool :=
  match s.pc with
  | .returned _ | .timedOut _ | .ended => false
  | _ => true

/-- One step: the timer ends, `read` returns, `h5_recv` makes an iteration, or the program goes on
to its next loop. -/
inductive Step (freed : Hw → List UInt8 → UInt8) (b : Board) (s : Attach) : Attach → Prop
  | alarm {a : Alarm} {s' : Attach} (hrun : s.running = true) (harmed : s.alarm = some a)
      (hok : a.run s = .ok s') : Step freed b s s'
  | read (chunk : List UInt8) (hptr : s.ptr = []) (hwait : s.waits = true)
      (hlen : chunk.length ≤ READ_DATA_SIZE) : Step freed b s { s with ptr := chunk }
  | readFails {s' : Attach} (hptr : s.ptr = []) (hwait : s.waits = true)
      (hok : s.readFails b = .ok s') : Step freed b s s'
  | recv {h : Hw} {l : List UInt8} (hrun : s.running = true) (hptr : s.ptr ≠ [])
      (hok : recvStep freed (s.hw, s.ptr) = .ok (h, l)) :
      Step freed b s { s with hw := h, ptr := l }
  | exits {e : Crash} (hrun : s.running = true) (hptr : s.ptr ≠ [])
      (herr : recvStep freed (s.hw, s.ptr) = .error e) : Step freed b s s.ends
  | proceed {s' : Attach} (hrun : s.running = true) (hptr : s.ptr = []) (hdone : s.waits = false)
      (hok : s.proceed b = .ok s') : Step freed b s s'

/-- The states a run reaches. -/
inductive Reachable (freed : Hw → List UInt8 → UInt8) (b : Board) : Attach → Prop
  | start {s : Attach} (hok : start = .ok s) : Reachable freed b s
  | step {s s' : Attach} (hs : Reachable freed b s) (hstep : Step freed b s s') :
      Reachable freed b s'

/-- What happens next: the timer ends, `read` returns a chunk, which `h5_recv` takes, or the loop
ends. -/
inductive Move
  | alarm
  | chunk (bytes : List UInt8)
  | proceed
  deriving DecidableEq, Repr

/-- The program makes a move, if it can; in the receiver it stops after `fuel` iterations. -/
def move (freed : Hw → List UInt8 → UInt8) (b : Board) (fuel : Nat) (s : Attach) :
    Move → Option Attach
  | .alarm =>
    match s.alarm with
    | some a => if s.running then (a.run s).toOption else none
    | none => none
  | .chunk bytes =>
    if s.waits ∧ s.ptr = [] ∧ bytes.length ≤ READ_DATA_SIZE then
      match whileLoop recvMore (recvStep freed) fuel (s.hw, bytes) with
      | some (.ok (h, l)) => some { s with hw := h, ptr := l }
      | _ => none
    else none
  | .proceed =>
    if s.running ∧ s.ptr = [] ∧ s.waits = false then (s.proceed b).toOption else none

/-- A run. -/
def follow (freed : Hw → List UInt8 → UInt8) (b : Board) (fuel : Nat) (ms : List Move) :
    Option Attach := do
  let s ← start.toOption
  ms.foldlM (move freed b fuel) s

end Attach

end Lichee.Bluetooth

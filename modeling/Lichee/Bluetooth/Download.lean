import Lichee.Bluetooth.Receiver

/- The patch download on the three-wire path (hciattach_rtk.c). The locals of
   `rtk_download_fw_config` are the state of its loop, with the integer types the source
   gives them: the length of the last block, the number of packets and the padding are
   eight-bit values. A packet is sent by `hci_download_patch`, which then takes what it
   reads through `h5_recv` until the controller has acknowledged the packet. -/
namespace Lichee.Bluetooth
open Base

abbrev PATCH_DATA_FIELD_MAX_SIZE : Nat := 252

/-- `RTK_PATCH_LENGTH_MAX` -/
abbrev RTK_PATCH_LENGTH_MAX : Nat := 24576

/-! ## One packet -/

/-- The bytes `hci_download_patch` has of the block: none are copied from NULL. -/
def patchData (data : Option (List UInt8)) (len : UInt8) : List UInt8 :=
  match data with
  | some d => d.take len.toNat
  | none => zeros len.toNat

/-- The command that carries a block. -/
def hcipatch (index : UInt8) (block : List UInt8) (len : UInt8) : List UInt8 :=
  [0x20, 0xfc, len + 1, index] ++ block

/-- The counter of the packet being sent, without the mark of the last one. -/
def Hw.indexed (h : Hw) (index : UInt8) : Hw :=
  { h with txIndex := if index = h.totalNum ||| 0x80 then h.totalNum else index }

/-- The packet is kept for a retry and written. -/
def Hw.patched (h : Hw) (index : UInt8) (block : List UInt8) (nskb : SkBuff) : Hw :=
  (({ h with hostLastCmd := some nskb }).note (.patch index block)).note (.wrote nskb.data)

/-- `hci_download_patch` up to its wait. -/
def hciDownloadPatch (h : Hw) (index : UInt8) (data : Option (List UInt8)) (len : UInt8) :
    Except Crash Hw := do
  let block := patchData data len
  match ← h5PreparePkt (h.indexed index) (hcipatch index block len) HCI_COMMAND_PKT with
  | some (nskb, h) => .ok (h.patched index block nskb)
  | none => .error .noSkb

/-- The wait of `hci_download_patch`: what each `read` returned goes through `h5_recv`, until
the packet is acknowledged. -/
inductive AwaitAck (freed : Hw → List UInt8 → UInt8) : Hw → List (List UInt8) → Hw → Prop
  | acked {h : Hw} (hack : h.rxIndex = h.txIndex.toNat) : AwaitAck freed h [] h
  | read {h h₁ h₂ : Hw} {chunk : List UInt8} {chunks : List (List UInt8)}
      (hack : h.rxIndex ≠ h.txIndex.toNat) (hrecv : Received freed h chunk (.ok (h₁, [])))
      (hrest : AwaitAck freed h₁ chunks h₂) : AwaitAck freed h (chunk :: chunks) h₂

/-! ## The loop over the packets -/

/-- The locals of `rtk_download_fw_config`. -/
structure Download where
  i : Nat
  iCurIndex : UInt8
  iCurLen : UInt8
  iEndIndex : UInt8
  iLastPacketLen : UInt8
  iTotalIndex : UInt8
  /-- `NULL` behind the last block -/
  bufpatch : Option (List UInt8)
  deriving Repr

/-- `state >= cmd_has_sent` -/
def CmdState.sent : CmdState → Bool
  | .cmdNotSend => false
  | .cmdHasSent => true
  | .eventReceived => true

/-- `iCmdSentNum` -/
def iCmdSentNum (h : Hw) (isSentChangerate : Bool) : Nat :=
  isSentChangerate.toNat + h.romVersionCmdState.sent.toNat + h.hciVersionCmdState.sent.toNat

/-- `iAdditionPkt` -/
def iAdditionPkt (iEndIndex : UInt8) (cmdSentNum : Nat) : UInt8 :=
  let n := iEndIndex.toNat + 1 + cmdSentNum
  .ofNat (if n % 8 ≠ 0 then 8 - n % 8 else 0)

/-- What stands before the loop. -/
def Download.start (h : Hw) (buf : List UInt8) (isSentChangerate : Bool) : Download :=
  let iEndIndex : UInt8 := .ofNat ((buf.length - 1) / PATCH_DATA_FIELD_MAX_SIZE)
  let iLastPacketLen : UInt8 := .ofNat (buf.length % PATCH_DATA_FIELD_MAX_SIZE)
  { i := 0
    iCurIndex := 0
    iCurLen := 0
    iEndIndex
    iLastPacketLen := if iLastPacketLen = 0 then .ofNat PATCH_DATA_FIELD_MAX_SIZE
      else iLastPacketLen
    iTotalIndex := iAdditionPkt iEndIndex (iCmdSentNum h isSentChangerate) + iEndIndex
    bufpatch := some buf }

/-- What `rtk_config` sets before the download. -/
def Hw.patchLink (h : Hw) : Hw := { h with linkEstabState := .patch, rxIndex := -1 }

/-- "init TotalIndex" -/
def Hw.counting (h : Hw) (d : Download) : Hw := { h with totalNum := d.iTotalIndex }

/-- `i <= iTotalIndex` -/
def Download.more (d : Download) : Prop := d.i ≤ d.iTotalIndex.toNat

instance (d : Download) : Decidable d.more := inferInstanceAs (Decidable (_ ≤ _))

/-- The index, length and block of the next packet. -/
def Download.choose (d : Download) : Download :=
  if d.iCurIndex < d.iEndIndex then
    { d with iCurIndex := d.iCurIndex &&& 0x7f, iCurLen := .ofNat PATCH_DATA_FIELD_MAX_SIZE }
  else if d.iCurIndex = d.iEndIndex then
    { d with
      iCurIndex := if d.iCurIndex = d.iTotalIndex then d.iCurIndex ||| 0x80
        else d.iCurIndex &&& 0x7f
      iCurLen := d.iLastPacketLen }
  else if d.iCurIndex < d.iTotalIndex then
    { d with iCurIndex := d.iCurIndex &&& 0x7f, bufpatch := none, iCurLen := 0 }
  else { d with bufpatch := none, iCurLen := 0, iCurIndex := d.iCurIndex ||| 0x80 }

/-- What stands behind the packet in the loop. -/
def Download.advance (d : Download) : Download :=
  { d with
    bufpatch := if d.iCurIndex < d.iEndIndex then d.bufpatch.map (·.drop PATCH_DATA_FIELD_MAX_SIZE)
      else d.bufpatch
    iCurIndex := d.iCurIndex + 1
    i := d.i + 1 }

/-- The next packet is sent. -/
def Download.send (d : Download) (h : Hw) : Except Crash Hw :=
  hciDownloadPatch h d.choose.iCurIndex d.choose.bufpatch d.choose.iCurLen

def Download.next (d : Download) : Download := d.choose.advance

/-- The loop, with what was read in it. -/
inductive Downloads (freed : Hw → List UInt8 → UInt8) :
    Download → Hw → List (List UInt8) → Hw → Prop
  | done {d : Download} {h : Hw} (hmore : ¬ d.more) : Downloads freed d h [] h
  | packet {d : Download} {h h₁ h₂ h₃ : Hw} {chunks rest : List (List UInt8)} (hmore : d.more)
      (hsend : d.send h = .ok h₁) (hack : AwaitAck freed h₁ chunks h₂)
      (hrest : Downloads freed d.next h₂ rest h₃) : Downloads freed d h (chunks ++ rest) h₃

/-- `rtk_download_fw_config`, every acknowledgement received. -/
inductive RtkDownloadFwConfig (freed : Hw → List UInt8 → UInt8) (h : Hw) (buf : List UInt8)
    (isSentChangerate : Bool) (chunks : List (List UInt8)) : Hw → Prop
  | intro {h₁ h₂ : Hw}
      (hloop : Downloads freed (.start h buf isSentChangerate)
        (h.counting (.start h buf isSentChangerate)) chunks h₁)
      (hack : rtkSendPureAckDown h₁ = .ok h₂) :
      RtkDownloadFwConfig freed h buf isSentChangerate chunks h₂

end Lichee.Bluetooth

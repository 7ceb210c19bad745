import Lichee.Base.CStr
import Lichee.Base.Errors
import Lichee.Base.Loop
import Lichee.Base.Stuffing
import Lichee.Bluetooth.Skb

/- The three-wire protocol of the Bluetooth controller (hciattach_rtk.c). A packet is a
   header of four bytes, the payload and, if the header says so, a CRC of two bytes; on the
   line it stands between two `0xc0`, with `0xc0`, `0xdb`, `0x11` and `0x13` escaped.
   `h5_prepare_pkt` writes packets, and `h5_recv` takes whatever bytes it is given through
   the states of the receiver, up to `h5_complete_rx_pkt` and the handlers behind it.

   Memory is there when it is asked for. `log` records what the program did: no code reads
   it. `rx_skb` may be left pointing to a block that was freed; where the code reads such a
   block, what it finds is a parameter (`freed`). -/
namespace Lichee.Bluetooth
open Base

/-! ## The state -/

/-- A sequence number. It is held in a `RT_U8`, and every assignment takes three bits. -/
abbrev SeqNo := Fin 8

instance seqNo_neZero : NeZero (8 : Nat) := ⟨by decide⟩

/-- `H5_RX_STATE` -/
inductive RxState
  | w4PktDelimiter | w4PktStart | w4Hdr | w4Data | w4Crc
  deriving DecidableEq, Repr

/-- `H5_RX_ESC_STATE` -/
inductive RxEscState
  | noEsc | esc
  deriving DecidableEq, Repr

/-- `H5_LINK_STATE` -/
inductive LinkState
  | sync | config | init | patch | active
  deriving DecidableEq, Repr

/-- `RTK_ROM_VERSION_CMD_STATE` -/
inductive CmdState
  | cmdNotSend | cmdHasSent | eventReceived
  deriving DecidableEq, Repr

/-- Where `rx_skb` points. -/
inductive RxSkb
  | null
  | freed
  | live (skb : SkBuff)
  deriving DecidableEq, Repr

/-- What the program did. -/
inductive Event
  /-- `write` to the line -/
  | wrote (bytes : List UInt8)
  /-- `h5_complete_rx_pkt` on a buffer that holds these bytes -/
  | frame (bytes : List UInt8)
  /-- `rxseq_txack` was set to the number of a packet out of order -/
  | resync (seq : SeqNo)
  /-- `hci_download_patch` sent this block under this index -/
  | patch (index : UInt8) (data : List UInt8)
  deriving DecidableEq, Repr

/-- `rtk_hw_cfg_t`. The `int`s `total_num` and `tx_index` are only ever given a `uint8_t`. -/
structure Hw where
  rxseqTxack : SeqNo
  rxack : SeqNo
  useCrc : Bool
  isTxackReq : Bool
  msgqTxseq : SeqNo
  messageCrc : UInt16
  rxCount : Nat
  rxState : RxState
  rxEscState : RxEscState
  linkEstabState : LinkState
  rxSkb : RxSkb
  hostLastCmd : Option SkBuff
  lmpVersion : UInt16
  eversion : UInt8
  totalNum : UInt8
  txIndex : UInt8
  rxIndex : Int
  romVersionCmdState : CmdState
  hciVersionCmdState : CmdState
  log : List Event
  deriving DecidableEq, Repr

/-- The `memset` of `rtk_init`. -/
def rtkInit : Hw where
  rxseqTxack := 0
  rxack := 0
  useCrc := false
  isTxackReq := false
  msgqTxseq := 0
  messageCrc := 0
  rxCount := 0
  rxState := .w4PktDelimiter
  rxEscState := .noEsc
  linkEstabState := .sync
  rxSkb := .null
  hostLastCmd := none
  lmpVersion := 0
  eversion := 0
  totalNum := 0
  txIndex := 0
  rxIndex := 0
  romVersionCmdState := .cmdNotSend
  hciVersionCmdState := .cmdNotSend
  log := []

def Hw.note (h : Hw) (e : Event) : Hw := { h with log := h.log ++ [e] }

/-- What ends the program inside the receiver. -/
inductive Crash
  /-- a copy to the NULL of `skb_put` -/
  | nullPut
  /-- an access through an `rx_skb` that points to no buffer -/
  | noSkb
  /-- "Unable to allocate file buffer" -/
  | exit
  deriving DecidableEq, Repr

/-! ## Bytes -/

/-- `byte_rev_table` -/
def byteRevTable : List UInt8 := [
  0x00, 0x80, 0x40, 0xc0, 0x20, 0xa0, 0x60, 0xe0,
  0x10, 0x90, 0x50, 0xd0, 0x30, 0xb0, 0x70, 0xf0,
  0x08, 0x88, 0x48, 0xc8, 0x28, 0xa8, 0x68, 0xe8,
  0x18, 0x98, 0x58, 0xd8, 0x38, 0xb8, 0x78, 0xf8,
  0x04, 0x84, 0x44, 0xc4, 0x24, 0xa4, 0x64, 0xe4,
  0x14, 0x94, 0x54, 0xd4, 0x34, 0xb4, 0x74, 0xf4,
  0x0c, 0x8c, 0x4c, 0xcc, 0x2c, 0xac, 0x6c, 0xec,
  0x1c, 0x9c, 0x5c, 0xdc, 0x3c, 0xbc, 0x7c, 0xfc,
  0x02, 0x82, 0x42, 0xc2, 0x22, 0xa2, 0x62, 0xe2,
  0x12, 0x92, 0x52, 0xd2, 0x32, 0xb2, 0x72, 0xf2,
  0x0a, 0x8a, 0x4a, 0xca, 0x2a, 0xaa, 0x6a, 0xea,
  0x1a, 0x9a, 0x5a, 0xda, 0x3a, 0xba, 0x7a, 0xfa,
  0x06, 0x86, 0x46, 0xc6, 0x26, 0xa6, 0x66, 0xe6,
  0x16, 0x96, 0x56, 0xd6, 0x36, 0xb6, 0x76, 0xf6,
  0x0e, 0x8e, 0x4e, 0xce, 0x2e, 0xae, 0x6e, 0xee,
  0x1e, 0x9e, 0x5e, 0xde, 0x3e, 0xbe, 0x7e, 0xfe,
  0x01, 0x81, 0x41, 0xc1, 0x21, 0xa1, 0x61, 0xe1,
  0x11, 0x91, 0x51, 0xd1, 0x31, 0xb1, 0x71, 0xf1,
  0x09, 0x89, 0x49, 0xc9, 0x29, 0xa9, 0x69, 0xe9,
  0x19, 0x99, 0x59, 0xd9, 0x39, 0xb9, 0x79, 0xf9,
  0x05, 0x85, 0x45, 0xc5, 0x25, 0xa5, 0x65, 0xe5,
  0x15, 0x95, 0x55, 0xd5, 0x35, 0xb5, 0x75, 0xf5,
  0x0d, 0x8d, 0x4d, 0xcd, 0x2d, 0xad, 0x6d, 0xed,
  0x1d, 0x9d, 0x5d, 0xdd, 0x3d, 0xbd, 0x7d, 0xfd,
  0x03, 0x83, 0x43, 0xc3, 0x23, 0xa3, 0x63, 0xe3,
  0x13, 0x93, 0x53, 0xd3, 0x33, 0xb3, 0x73, 0xf3,
  0x0b, 0x8b, 0x4b, 0xcb, 0x2b, 0xab, 0x6b, 0xeb,
  0x1b, 0x9b, 0x5b, 0xdb, 0x3b, 0xbb, 0x7b, 0xfb,
  0x07, 0x87, 0x47, 0xc7, 0x27, 0xa7, 0x67, 0xe7,
  0x17, 0x97, 0x57, 0xd7, 0x37, 0xb7, 0x77, 0xf7,
  0x0f, 0x8f, 0x4f, 0xcf, 0x2f, 0xaf, 0x6f, 0xef,
  0x1f, 0x9f, 0x5f, 0xdf, 0x3f, 0xbf, 0x7f, 0xff]

def bitRev8 (byte : UInt8) : UInt8 := byteRevTable.getD byte.toNat 0

def bitRev16 (x : UInt16) : UInt16 :=
  (bitRev8 x.toUInt8).toUInt16 <<< 8 ||| (bitRev8 (x >>> 8).toUInt8).toUInt16

/-- `crc_table` -/
def crcTable : List UInt16 := [
  0x0000, 0x1081, 0x2102, 0x3183,
  0x4204, 0x5285, 0x6306, 0x7387,
  0x8408, 0x9489, 0xa50a, 0xb58b,
  0xc60c, 0xd68d, 0xe70e, 0xf78f]

/-- `H5_CRC_INIT` -/
def h5CrcInit : UInt16 := 0xffff

def h5CrcUpdate (crc : UInt16) (d : UInt8) : UInt16 :=
  let reg := crc >>> 4 ^^^ crcTable.getD ((crc ^^^ d.toUInt16) &&& 0x000f).toNat 0
  reg >>> 4 ^^^ crcTable.getD ((reg ^^^ (d >>> 4).toUInt16) &&& 0x000f).toNat 0

/-- The first byte of a header: acknowledged number, CRC and reliable bit, sequence number. -/
structure HdrByte where
  seq : SeqNo
  ack : SeqNo
  crc : Bool
  reliable : Bool
  deriving DecidableEq, Repr

/-- `H5_HDR_SEQ`, `H5_HDR_ACK`, `H5_HDR_CRC` and `H5_HDR_RELIABLE`. -/
def hdrByte (b : UInt8) : HdrByte where
  seq := Fin.ofNat 8 (b &&& 0x07).toNat
  ack := Fin.ofNat 8 ((b >>> 3) &&& 0x07).toNat
  crc := (b &&& 0x40) != 0
  reliable := (b &&& 0x80) != 0

/-- `H5_HDR_PKT_TYPE` -/
def hdrPktType (b : UInt8) : UInt8 := b &&& 0x0f

/-- `H5_HDR_LEN`: the payload length of the bytes 1 and 2 of a header. -/
def hdrLen (b c : UInt8) : Nat := (b >>> 4).toNat + c.toNat * 16

/-- The checksum that goes with the bytes 0 to 2 of a header. -/
def hdrChecksum (a b c : UInt8) : UInt8 := ~~~(a + b + c)

/-! ## Packet types -/

abbrev H5_ACK_PKT : UInt8 := 0x00
abbrev HCI_COMMAND_PKT : UInt8 := 0x01
abbrev HCI_ACLDATA_PKT : UInt8 := 0x02
abbrev HCI_SCODATA_PKT : UInt8 := 0x03
abbrev HCI_EVENT_PKT : UInt8 := 0x04
abbrev H5_VDRSPEC_PKT : UInt8 := 0x0e
abbrev H5_LINK_CTL_PKT : UInt8 := 0x0f

/-- Whether `h5_prepare_pkt` sends a type reliably; `none` for an "Unknown packet type". -/
def reliableType (pktType : UInt8) : Option Bool :=
  if pktType = HCI_ACLDATA_PKT ∨ pktType = HCI_COMMAND_PKT ∨ pktType = HCI_EVENT_PKT then some true
  else if pktType = H5_ACK_PKT ∨ pktType = H5_VDRSPEC_PKT ∨ pktType = H5_LINK_CTL_PKT then
    some false
  else none

/-- The types `h5_complete_rx_pkt` passes up. -/
def passUp (pktType : UInt8) : Bool :=
  pktType == HCI_ACLDATA_PKT || pktType == HCI_EVENT_PKT || pktType == HCI_SCODATA_PKT ||
    pktType == HCI_COMMAND_PKT || pktType == H5_LINK_CTL_PKT

/-! ## The sender -/

/-- The code behind `0xdb` of a byte that is escaped. -/
def slipCode (c : UInt8) : Option UInt8 :=
  if c = 0xc0 then some 0xdc
  else if c = 0xdb then some 0xdd
  else if c = 0x11 then some 0xde
  else if c = 0x13 then some 0xdf
  else none

/-- The byte of a code. -/
def slipBack (d : UInt8) : Option UInt8 :=
  if d = 0xdc then some 0xc0
  else if d = 0xdd then some 0xdb
  else if d = 0xde then some 0x11
  else if d = 0xdf then some 0x13
  else none

def slip : Stuffing UInt8 where
  esc := 0xdb
  code := slipCode
  back := slipBack
  back_code := byte_cases (by decide +kernel)
  esc_coded := rfl

/-- A copy of bytes to where `skb_put` points. -/
def put (skb : SkBuff) (bytes : List UInt8) : Except Crash SkBuff :=
  match skbPut skb bytes with
  | some skb => .ok skb
  | none => .error .nullPut

def h5SlipMsgdelim (skb : SkBuff) : Except Crash SkBuff := put skb [0xc0]

def h5SlipOneByte (skb : SkBuff) (c : UInt8) : Except Crash SkBuff := put skb (slip.stuff c)

/-- The header of the next packet. -/
def h5Header (h : Hw) (len : Nat) (pktType : UInt8) (rel : Bool) : List UInt8 :=
  let hdr0 : UInt8 := UInt8.ofNat h.rxseqTxack.val <<< 3
  let hdr0 := if rel then hdr0 ||| (0x80 + UInt8.ofNat h.msgqTxseq.val) else hdr0
  let hdr0 := if h.useCrc then hdr0 ||| 0x40 else hdr0
  let hdr1 := UInt8.ofNat (len <<< 4) ||| pktType
  let hdr2 := UInt8.ofNat (len >>> 4)
  [hdr0, hdr1, hdr2, hdrChecksum hdr0 hdr1 hdr2]

/-- The two bytes of the CRC over a header and a payload. -/
def h5Trailer (bytes : List UInt8) : List UInt8 :=
  let crc := bitRev16 (bytes.foldl h5CrcUpdate h5CrcInit)
  [(crc >>> 8).toUInt8, crc.toUInt8]

/-- `h5_prepare_pkt`: `none` where it returns NULL. -/
def h5PreparePkt (h : Hw) (data : List UInt8) (pktType : UInt8) :
    Except Crash (Option (SkBuff × Hw)) :=
  match reliableType pktType with
  | none => .ok none
  | some rel => do
    let hdr := h5Header h data.length pktType rel
    -- two delimiters, and every byte of the header, the data and the checksum may be escaped
    let nskb ← h5SlipMsgdelim (skbAlloc ((data.length + 6) * 2 + 2))
    let nskb ← hdr.foldlM h5SlipOneByte nskb
    let nskb ← data.foldlM h5SlipOneByte nskb
    let nskb ← (if h.useCrc then h5Trailer (hdr ++ data) else []).foldlM h5SlipOneByte nskb
    let nskb ← h5SlipMsgdelim nskb
    .ok (some (nskb, { h with
      isTxackReq := false
      msgqTxseq := if rel then h.msgqTxseq + 1 else h.msgqTxseq }))

/-- `rtk_send_pure_ack_down` -/
def rtkSendPureAckDown (h : Hw) : Except Crash Hw := do
  match ← h5PreparePkt h [] H5_ACK_PKT with
  | some (nskb, h) => .ok (h.note (.wrote nskb.data))
  | none => .error .noSkb

/-! ## The handlers of received frames -/

/-- A pull the program survives only if there are as many bytes. -/
def pull (skb : SkBuff) (len : Nat) : Except Crash SkBuff :=
  match skbPull skb len with
  | some skb => .ok skb
  | none => .error .exit

/-- Byte `i` of the block. -/
def SkBuff.byte (skb : SkBuff) (i : Nat) : UInt8 := skb.block.getD i 0

/-- Whether `!memcmp(skb->data, bytes, 2)`. -/
def SkBuff.starts (skb : SkBuff) (bytes : List UInt8) : Bool := skb.block.take 2 == bytes

/-- A 16-bit value of the block, low byte first. -/
def SkBuff.le16 (skb : SkBuff) (i : Nat) : UInt16 :=
  (skb.byte i).toUInt16 + (skb.byte (i + 1)).toUInt16 <<< 8

abbrev HCI_EVENT_HDR_SIZE : Nat := 2
/-- The packed size of `hci_ev_cmd_complete`. -/
abbrev CMD_COMPLETE_SIZE : Nat := 3

def HCI_VENDOR_CHANGE_BDRATE : UInt16 := 0xfc17
def HCI_VENDOR_READ_LMP_VERISION : UInt16 := 0x1001
def HCI_VENDOR_READ_RTK_ROM_VERISION : UInt16 := 0xfc6d

/-- `hci_event_cmd_complete`. `HCI_CMD_READ_BD_ADDR` is only printed. -/
def hciEventCmdComplete (h : Hw) (skb : SkBuff) : Except Crash Hw := do
  let skb ← pull skb HCI_EVENT_HDR_SIZE
  let opcode := skb.le16 1
  let skb ← pull skb CMD_COMPLETE_SIZE
  let status := skb.byte 0
  if opcode = HCI_VENDOR_CHANGE_BDRATE then
    .ok { h with hostLastCmd := none, linkEstabState := .patch }
  else if opcode = HCI_VENDOR_READ_LMP_VERISION then
    .ok { h with
      hciVersionCmdState := .eventReceived
      lmpVersion := if status = 0 then
        (skb.byte 7).toUInt16 ||| (skb.byte 8).toUInt16 <<< 8 else h.lmpVersion
      hostLastCmd := none }
  else if opcode = HCI_VENDOR_READ_RTK_ROM_VERISION then
    .ok { h with
      romVersionCmdState := .eventReceived
      eversion := if status = 0 then skb.byte 1 else if status = 1 then 0 else h.eversion
      hostLastCmd := none }
  else .ok h

def h5sync : List UInt8 := [0x01, 0x7e]
def h5syncresp : List UInt8 := [0x02, 0x7d]
def h5conf : List UInt8 := [0x03, 0xfc]
def h5confresp : List UInt8 := [0x04, 0x7b]
def h5SyncRespPkt : List UInt8 := [0xc0, 0x00, 0x2f, 0x00, 0xd0, 0x02, 0x7d, 0xc0]
def h5ConfRespPktToCtrl : List UInt8 := [0xc0, 0x00, 0x2f, 0x00, 0xd0, 0x04, 0x7b, 0xc0]
def cmdCompleteEvtCode : UInt8 := 0x0e

/-- `hci_recv_frame` -/
def hciRecvFrame (h : Hw) (skb : SkBuff) : Except Crash Hw :=
  match h.linkEstabState with
  | .sync =>
    if skb.starts h5sync then .ok (h.note (.wrote h5SyncRespPkt))
    else if skb.starts h5syncresp then .ok { h with linkEstabState := .config }
    else .ok h
  | .config =>
    if skb.starts h5sync then .ok (h.note (.wrote h5SyncRespPkt))
    else if skb.starts h5conf then .ok (h.note (.wrote h5ConfRespPktToCtrl))
    else if skb.starts h5confresp then .ok { h with linkEstabState := .init }
    else rtkSendPureAckDown h
  | .init => do
    let h ← if skb.byte 0 = cmdCompleteEvtCode then hciEventCmdComplete h skb else .ok h
    let h ← rtkSendPureAckDown h
    let h ← rtkSendPureAckDown h
    rtkSendPureAckDown h
  | .patch =>
    -- `rx_index &= ~0x80`
    let rxIndex : Int := (skb.byte 6 &&& 0x7f).toNat
    .ok { h with
      rxIndex := rxIndex
      linkEstabState := if rxIndex = h.totalNum.toNat then .active else .patch }
  | .active => .ok h

/-! ## The receiver -/

/-- The state in which `h5_complete_rx_pkt` passes a packet up. -/
def Hw.acked (h : Hw) (skb : SkBuff) : Hw :=
  let hdr := hdrByte (skb.byte 0)
  { h with
    rxseqTxack := if hdr.reliable then hdr.seq + 1 else h.rxseqTxack
    isTxackReq := if hdr.reliable then true else h.isTxackReq
    rxack := hdr.ack
    log := h.log ++ [.frame skb.data] }

/-- `h5_complete_rx_pkt`, whose queue of packets to remove is always empty. -/
def h5CompleteRxPkt (h : Hw) (skb : SkBuff) : Except Crash Hw := do
  let h := h.acked skb
  let h ← if passUp (hdrPktType (skb.byte 1)) then do
      let skb ← pull skb 4
      hciRecvFrame h skb
    else .ok h
  .ok { h with rxState := .w4PktDelimiter, rxSkb := .null }

/-- The state with `c` put into the buffer, which is then `skb`, and counted. The CRC covers
the packet up to its trailer. -/
def Hw.stored (h : Hw) (skb : SkBuff) (c : UInt8) : Hw :=
  { h with
    rxSkb := .live skb
    messageCrc := if (hdrByte (skb.byte 0)).crc = true ∧ h.rxState ≠ .w4Crc then
      h5CrcUpdate h.messageCrc c else h.messageCrc
    rxEscState := .noEsc
    rxCount := h.rxCount - 1 }

/-- A byte that came through `h5_unslip_one_byte`. -/
def h5StoreByte (h : Hw) (c : UInt8) : Except Crash Hw :=
  match h.rxSkb with
  | .live skb => do
    let skb ← put skb [c]
    .ok (h.stored skb c)
  | _ => .error .noSkb

/-- After an invalid byte behind an escape. -/
def Hw.reset (h : Hw) : Hw := { h with rxSkb := .null, rxState := .w4PktDelimiter, rxCount := 0 }

/-- `h5_unslip_one_byte` -/
def h5UnslipOneByte (h : Hw) (byte : UInt8) : Except Crash Hw :=
  match h.rxEscState with
  | .noEsc => if byte = 0xdb then .ok { h with rxEscState := .esc } else h5StoreByte h byte
  | .esc =>
    match slipBack byte with
    | some c => h5StoreByte h c
    | none => .ok h.reset

/-- The buffer is freed, and the receiver waits for a packet in the state given. -/
def Hw.drop (h : Hw) (state : RxState) : Hw :=
  { h with rxSkb := .freed, rxState := state, rxCount := 0 }

/-- A buffer for the longest packet, of which the header is expected. -/
def Hw.opened (h : Hw) : Hw :=
  { h with
    rxState := .w4Hdr
    rxCount := 4
    rxEscState := .noEsc
    messageCrc := h5CrcInit
    rxSkb := .live (skbAlloc 0x1005) }

/-- A reliable packet out of order is dropped, and an acknowledgement asked for. -/
def Hw.outOfOrder (h : Hw) : Hw := { h with isTxackReq := true }.drop .w4PktDelimiter

/-- "depend on weather remote will reset ack numb or not" -/
def Hw.resynced (h : Hw) (seq : SeqNo) : Hw := { h with rxseqTxack := seq }.note (.resync seq)

/-- The payload is expected. -/
def Hw.awaitData (h : Hw) (len : Nat) : Hw := { h with rxState := .w4Data, rxCount := len }

/-- `case H5_W4_HDR`. The number taken over from a packet out of order is read from the
freed buffer. -/
def recvHdr (freed : UInt8) (h : Hw) (skb : SkBuff) : Hw :=
  let hdr := hdrByte (skb.byte 0)
  if hdrChecksum (skb.byte 0) (skb.byte 1) (skb.byte 2) ≠ skb.byte 3 then h.drop .w4PktDelimiter
  else if hdr.reliable = true ∧ hdr.seq ≠ h.rxseqTxack then
    if h.txIndex = h.totalNum then h.outOfOrder.resynced (hdrByte freed).seq
    else h.outOfOrder
  else h.awaitData (hdrLen (skb.byte 1) (skb.byte 2))

/-- "pkt with crc": the trailer is expected. -/
def Hw.awaitCrc (h : Hw) : Hw := { h with rxState := .w4Crc, rxCount := 2 }

/-- `h5_get_crc` -/
def h5GetCrc (skb : SkBuff) : UInt16 :=
  let i := skb.data.length - 2
  (skb.byte (i + 1)).toUInt16 + (skb.byte i).toUInt16 <<< 8

/-- One iteration of `h5_recv`: the state and the bytes from `ptr` on. -/
def recvStep (freed : Hw → List UInt8 → UInt8) : Hw × List UInt8 →
    Except Crash (Hw × List UInt8)
  | (h, []) => .ok (h, [])
  | (h, byte :: ptr) =>
    if h.rxCount ≠ 0 then
      -- a delimiter inside a frame: the frame is too short
      if byte = 0xc0 then .ok (h.drop .w4PktStart, ptr)
      else do
        let h ← h5UnslipOneByte h byte
        .ok (h, ptr)
    else
      match h.rxState, h.rxSkb with
      -- a whole header, payload or checksum takes no byte: `byte` is looked at again
      | .w4Hdr, .live skb => .ok (recvHdr (freed h (byte :: ptr)) h skb, byte :: ptr)
      | .w4Data, .live skb =>
        if (hdrByte (skb.byte 0)).crc then
          .ok (h.awaitCrc, byte :: ptr)
        else do
          let h ← h5CompleteRxPkt h skb
          .ok (h, byte :: ptr)
      | .w4Crc, .live skb =>
        if bitRev16 h.messageCrc ≠ h5GetCrc skb then .ok (h.drop .w4PktDelimiter, byte :: ptr)
        else do
          let h ← h5CompleteRxPkt h (skbTrim skb (skb.data.length - 2))
          .ok (h, byte :: ptr)
      -- everything up to a delimiter is passed over
      | .w4PktDelimiter, _ =>
        .ok (if byte = 0xc0 then { h with rxState := .w4PktStart } else h, ptr)
      | .w4PktStart, _ =>
        if byte = 0xc0 then .ok (h, ptr)
        else .ok (h.opened, byte :: ptr)
      | _, _ => .error .noSkb

/-- `while (count)` -/
def recvMore (s : Hw × List UInt8) : Bool := !s.2.isEmpty

/-- `h5_recv` on a chunk: the state it returns in, or the end of the program. -/
def Received (freed : Hw → List UInt8 → UInt8) (h : Hw) (chunk : List UInt8)
    (r : Except Crash (Hw × List UInt8)) : Prop :=
  Ends recvMore (recvStep freed) (h, chunk) r

end Lichee.Bluetooth

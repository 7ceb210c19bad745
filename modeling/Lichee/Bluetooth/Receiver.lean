import Lichee.Bluetooth.Line

/- The receiver over any bytes. `Receiving` is the invariant of `h5_recv`: between frames no
   byte is expected; in a frame there is a buffer of the size of the longest packet, and the
   bytes in it and those expected are as many as the part of the packet needs. What one
   iteration can do from such a state is said once (`recvStep_cases`). -/
namespace Lichee.Bluetooth
open Base

/-! ## What the handlers leave alone -/

/-- The handlers of a frame leave the receiver and the download counters as they are; they
may write to the line, but no command. -/
structure SameRx (h h' : Hw) : Prop where
  seq : h'.rxseqTxack = h.rxseqTxack
  count : h'.rxCount = h.rxCount
  tx : h'.txIndex = h.txIndex
  total : h'.totalNum = h.totalNum
  log : ∃ ws : List (List UInt8), h'.log = h.log ++ ws.map .wrote ∧ ∀ w ∈ ws, commandOf w = none

namespace SameRx

theorem silent {h h' : Hw} (hseq : h'.rxseqTxack = h.rxseqTxack) (hcount : h'.rxCount = h.rxCount)
    (htx : h'.txIndex = h.txIndex) (htotal : h'.totalNum = h.totalNum) (hlog : h'.log = h.log) :
    SameRx h h' :=
  ⟨hseq, hcount, htx, htotal, [], hlog.trans (List.append_nil _).symm, List.forall_mem_nil _⟩

theorem refl (h : Hw) : SameRx h h := silent rfl rfl rfl rfl rfl

theorem trans {h₁ h₂ h₃ : Hw} (a : SameRx h₁ h₂) (b : SameRx h₂ h₃) : SameRx h₁ h₃ := by
  obtain ⟨ws, hws, hw⟩ := a.log
  obtain ⟨vs, hvs, hv⟩ := b.log
  refine ⟨b.seq.trans a.seq, b.count.trans a.count, b.tx.trans a.tx, b.total.trans a.total,
    ws ++ vs, ?_, List.forall_mem_append.mpr ⟨hw, hv⟩⟩
  rw [hvs, hws, List.map_append, List.append_assoc]

theorem wrote (h : Hw) {bytes : List UInt8} (hb : commandOf bytes = none) :
    SameRx h (h.note (.wrote bytes)) :=
  ⟨rfl, rfl, rfl, rfl, [bytes], rfl, List.forall_mem_singleton.mpr hb⟩

end SameRx

theorem rtkSendPureAckDown_ok (h : Hw) :
    ∃ h', rtkSendPureAckDown h = .ok h' ∧ SameRx h h' := by
  obtain ⟨nskb, hsend, hline⟩ := h5PreparePkt_sends h []
    (rfl : reliableType H5_ACK_PKT = some false)
  refine ⟨(h.prepared false).note (.wrote nskb.data), ?_, ?_⟩
  · rw [rtkSendPureAckDown, hsend]
    rfl
  · have hack : commandOf nskb.data = none := by
      rw [hline]
      exact commandOf_ack h
    exact ⟨rfl, rfl, rfl, rfl, [nskb.data], rfl, List.forall_mem_singleton.mpr hack⟩

/-- A command complete event shorter than the headers `hci_event_cmd_complete` pulls. -/
def CutShort (h : Hw) (skb : SkBuff) : Prop :=
  h.linkEstabState = .init ∧ skb.byte 0 = cmdCompleteEvtCode ∧ skb.data.length < 5

theorem hciEventCmdComplete_ok (h : Hw) {skb : SkBuff} (hlen : 5 ≤ skb.data.length) :
    ∃ h', hciEventCmdComplete h skb = .ok h' ∧ SameRx h h' := by
  obtain ⟨s₁, h₁, d₁⟩ := skbPull_some skb HCI_EVENT_HDR_SIZE
    (by unfold HCI_EVENT_HDR_SIZE; omega)
  obtain ⟨s₂, h₂, -⟩ := skbPull_some s₁ CMD_COMPLETE_SIZE
    (by rw [d₁, List.length_drop]; unfold HCI_EVENT_HDR_SIZE CMD_COMPLETE_SIZE; omega)
  simp only [hciEventCmdComplete, pull, h₁, h₂, ok_bind]
  split
  · exact ⟨_, rfl, .silent rfl rfl rfl rfl rfl⟩
  split
  · exact ⟨_, rfl, .silent rfl rfl rfl rfl rfl⟩
  split
  · exact ⟨_, rfl, .silent rfl rfl rfl rfl rfl⟩
  · exact ⟨h, rfl, .refl h⟩

theorem hciEventCmdComplete_exit (h : Hw) {skb : SkBuff} (hlen : skb.data.length < 5) :
    hciEventCmdComplete h skb = .error .exit := by
  rw [hciEventCmdComplete]
  by_cases h2 : 2 ≤ skb.data.length
  · obtain ⟨s₁, h₁, d₁⟩ := skbPull_some skb HCI_EVENT_HDR_SIZE h2
    have h₂ := skbPull_none s₁ CMD_COMPLETE_SIZE (by
      rw [d₁, List.length_drop]
      unfold HCI_EVENT_HDR_SIZE CMD_COMPLETE_SIZE
      omega)
    simp only [pull, h₁, h₂, ok_bind, error_bind]
  · have h₁ := skbPull_none skb HCI_EVENT_HDR_SIZE
      (by unfold HCI_EVENT_HDR_SIZE; omega)
    simp only [pull, h₁, error_bind]

/-- Three pure acks behind a frame in the state `H5_INIT`. -/
theorem three_acks (h : Hw) : ∃ h', (do
    let h ← rtkSendPureAckDown h
    let h ← rtkSendPureAckDown h
    rtkSendPureAckDown h) = .ok h' ∧ SameRx h h' := by
  obtain ⟨h₁, e₁, s₁⟩ := rtkSendPureAckDown_ok h
  obtain ⟨h₂, e₂, s₂⟩ := rtkSendPureAckDown_ok h₁
  obtain ⟨h₃, e₃, s₃⟩ := rtkSendPureAckDown_ok h₂
  refine ⟨h₃, ?_, (s₁.trans s₂).trans s₃⟩
  simp only [e₁, e₂, e₃, ok_bind]

theorem hciRecvFrame_ok (h : Hw) (skb : SkBuff) (hn : ¬ CutShort h skb) :
    ∃ h', hciRecvFrame h skb = .ok h' ∧ SameRx h h' := by
  cases hl : h.linkEstabState with
  | sync =>
    simp only [hciRecvFrame, hl]
    split
    · exact ⟨_, rfl, .wrote h commandOf_syncResp⟩
    split
    · exact ⟨_, rfl, .silent rfl rfl rfl rfl rfl⟩
    · exact ⟨h, rfl, .refl h⟩
  | config =>
    simp only [hciRecvFrame, hl]
    split
    · exact ⟨_, rfl, .wrote h commandOf_syncResp⟩
    split
    · exact ⟨_, rfl, .wrote h commandOf_confResp⟩
    split
    · exact ⟨_, rfl, .silent rfl rfl rfl rfl rfl⟩
    · exact rtkSendPureAckDown_ok h
  | init =>
    simp only [hciRecvFrame, hl]
    by_cases hevt : skb.byte 0 = cmdCompleteEvtCode
    · have hlen : 5 ≤ skb.data.length := by
        by_contra hlt
        exact hn ⟨hl, hevt, by omega⟩
      obtain ⟨h₁, e₁, s₁⟩ := hciEventCmdComplete_ok h hlen
      obtain ⟨h₂, e₂, s₂⟩ := three_acks h₁
      rw [if_pos hevt, e₁]
      exact ⟨h₂, e₂, s₁.trans s₂⟩
    · rw [if_neg hevt]
      exact three_acks h
  | patch =>
    simp only [hciRecvFrame, hl]
    exact ⟨_, rfl, .silent rfl rfl rfl rfl rfl⟩
  | active =>
    simp only [hciRecvFrame, hl]
    exact ⟨h, rfl, .refl h⟩

theorem hciRecvFrame_exit {h : Hw} {skb : SkBuff} (hc : CutShort h skb) :
    hciRecvFrame h skb = .error .exit := by
  obtain ⟨hl, hevt, hlen⟩ := hc
  simp only [hciRecvFrame, hl, if_pos hevt, hciEventCmdComplete_exit h hlen, error_bind]

/-! ## Completing a packet -/

/-- A packet passed up to `hci_recv_frame` that is cut short there. -/
def CutFrame (h : Hw) (skb : SkBuff) : Prop :=
  passUp (hdrPktType (skb.byte 1)) = true ∧ ∃ s, skbPull skb 4 = some s ∧ CutShort h s

/-- What `h5_complete_rx_pkt` does to the receiver. -/
structure Completed (h : Hw) (skb : SkBuff) (h' : Hw) : Prop where
  seq : h'.rxseqTxack = if (hdrByte (skb.byte 0)).reliable then (hdrByte (skb.byte 0)).seq + 1
    else h.rxseqTxack
  count : h'.rxCount = h.rxCount
  state : h'.rxState = .w4PktDelimiter
  tx : h'.txIndex = h.txIndex
  total : h'.totalNum = h.totalNum
  log : ∃ ws : List (List UInt8), h'.log = h.log ++ .frame skb.data :: ws.map .wrote ∧
    ∀ w ∈ ws, commandOf w = none

theorem completed_of_sameRx {h h' : Hw} {skb : SkBuff} (hs : SameRx (h.acked skb) h') :
    Completed h skb { h' with rxState := .w4PktDelimiter, rxSkb := .null } := by
  obtain ⟨ws, hws, hw⟩ := hs.log
  refine ⟨hs.seq, hs.count, rfl, hs.tx, hs.total, ws, ?_, hw⟩
  simp only [hws, Hw.acked, List.append_assoc, List.singleton_append]

theorem h5CompleteRxPkt_ok {h : Hw} {skb : SkBuff} (hlen : 4 ≤ skb.data.length)
    (hn : ¬ CutFrame h skb) : ∃ h', h5CompleteRxPkt h skb = .ok h' ∧ Completed h skb h' := by
  cases hp : passUp (hdrPktType (skb.byte 1)) with
  | true =>
    obtain ⟨s, hs, -⟩ := skbPull_some skb 4 hlen
    obtain ⟨h', hrecv, hsame⟩ := hciRecvFrame_ok (h.acked skb) s fun hc => hn ⟨hp, s, hs, hc⟩
    refine ⟨_, ?_, completed_of_sameRx hsame⟩
    simp only [h5CompleteRxPkt, hp, if_true, pull, hs, ok_bind, hrecv]
  | false =>
    refine ⟨_, ?_, completed_of_sameRx (.refl _)⟩
    simp only [h5CompleteRxPkt, hp, Bool.false_eq_true, if_false, ok_bind]

theorem h5CompleteRxPkt_exit {h : Hw} {skb : SkBuff} (hc : CutFrame h skb) :
    h5CompleteRxPkt h skb = .error .exit := by
  obtain ⟨hp, s, hs, hcut⟩ := hc
  have hrecv : hciRecvFrame (h.acked skb) s = .error .exit := hciRecvFrame_exit hcut
  simp only [h5CompleteRxPkt, hp, if_true, pull, hs, ok_bind, hrecv, error_bind]

/-! ## The invariant -/

/-- The payload length the header in a buffer gives. -/
def SkBuff.payloadLen (skb : SkBuff) : Nat := hdrLen (skb.byte 1) (skb.byte 2)

/-- The packet in the buffer is not reliable, or the next in sequence. -/
def Expected (h : Hw) (skb : SkBuff) : Prop :=
  (hdrByte (skb.byte 0)).reliable = true → (hdrByte (skb.byte 0)).seq = h.rxseqTxack

/-- The receiver is between frames, or in a frame with a buffer that has room for what it
expects. -/
inductive Receiving (h : Hw) : Prop
  | between (hstate : h.rxState = .w4PktDelimiter ∨ h.rxState = .w4PktStart)
      (hcount : h.rxCount = 0)
  | hdr (skb : SkBuff) (hskb : h.rxSkb = .live skb) (hmax : skb.maxLen = 0x1005)
      (hstate : h.rxState = .w4Hdr) (hcount : skb.data.length + h.rxCount = 4)
  | data (skb : SkBuff) (hskb : h.rxSkb = .live skb) (hmax : skb.maxLen = 0x1005)
      (hstate : h.rxState = .w4Data) (hlen : 4 ≤ skb.data.length)
      (hcount : skb.data.length + h.rxCount = 4 + skb.payloadLen) (hexp : Expected h skb)
  | crc (skb : SkBuff) (hskb : h.rxSkb = .live skb) (hmax : skb.maxLen = 0x1005)
      (hstate : h.rxState = .w4Crc) (hlen : 4 + skb.payloadLen ≤ skb.data.length)
      (hcount : skb.data.length + h.rxCount = 6 + skb.payloadLen) (hexp : Expected h skb)

theorem hdrLen_le (b c : UInt8) : hdrLen b c ≤ 4095 := by
  have hb : (b >>> 4).toNat ≤ 15 := byte_cases (P := fun b => (b >>> 4).toNat ≤ 15)
    (by decide +kernel) b
  have hc := c.toNat_lt
  unfold hdrLen
  omega

/-- A byte in use is found in the data. -/
theorem byte_eq {skb : SkBuff} {i : Nat} (h : i < skb.data.length) :
    skb.byte i = skb.data.getD i 0 := by
  rw [SkBuff.byte, SkBuff.block, List.getD_eq_getElem?_getD, List.getElem?_append_left h,
    List.getD_eq_getElem?_getD]

theorem byte_of_data {skb skb' : SkBuff} {l : List UInt8} {i : Nat}
    (hd : skb'.data = skb.data ++ l) (h : i < skb.data.length) : skb'.byte i = skb.byte i := by
  have hlen : i < skb'.data.length := by
    rw [hd, List.length_append]
    omega
  rw [byte_eq hlen, byte_eq h, hd, List.getD_eq_getElem?_getD, List.getElem?_append_left h,
    List.getD_eq_getElem?_getD]

/-- A buffer that still expects bytes has room for one. -/
theorem put_expected {h : Hw} (hR : Receiving h) (hc : h.rxCount ≠ 0) (c : UInt8) :
    ∃ skb skb', h.rxSkb = .live skb ∧ put skb [c] = .ok skb' ∧ skb'.data = skb.data ++ [c] ∧
      skb'.maxLen = skb.maxLen := by
  have hroom : ∃ skb, h.rxSkb = .live skb ∧ skb.data.length + [c].length ≤ skb.maxLen := by
    cases hR with
    | between _ hcount => exact absurd hcount hc
    | hdr skb hskb hmax _ hcount =>
      refine ⟨skb, hskb, ?_⟩
      rw [hmax, List.length_singleton]
      omega
    | data skb hskb hmax _ _ hcount =>
      have : skb.payloadLen ≤ 4095 := hdrLen_le _ _
      refine ⟨skb, hskb, ?_⟩
      rw [hmax, List.length_singleton]
      omega
    | crc skb hskb hmax _ _ hcount =>
      have : skb.payloadLen ≤ 4095 := hdrLen_le _ _
      refine ⟨skb, hskb, ?_⟩
      rw [hmax, List.length_singleton]
      omega
  obtain ⟨skb, hskb, hroom⟩ := hroom
  obtain ⟨skb', hput, hdata, hmax⟩ := put_room skb [c] hroom
  exact ⟨skb, skb', hskb, hput, hdata, hmax⟩

/-! ## One iteration -/

/-- What an iteration of `h5_recv` does at the byte `byte`, with `ptr` behind it. -/
inductive RecvCase (h : Hw) (byte : UInt8) (ptr : List UInt8) : Hw × List UInt8 → Prop
  /-- a delimiter between frames, or a byte that is skipped -/
  | skips (s : RxState) (hs : s = .w4PktDelimiter ∨ s = .w4PktStart) (hcount : h.rxCount = 0) :
      RecvCase h byte ptr ({ h with rxState := s }, ptr)
  /-- the first byte of a packet -/
  | opens (hstate : h.rxState = .w4PktStart) (hcount : h.rxCount = 0) :
      RecvCase h byte ptr (h.opened, byte :: ptr)
  /-- a delimiter inside a packet -/
  | short : RecvCase h byte ptr (h.drop .w4PktStart, ptr)
  | escapes (hcount : h.rxCount ≠ 0) : RecvCase h byte ptr ({ h with rxEscState := .esc }, ptr)
  /-- an invalid byte behind an escape -/
  | badCode : RecvCase h byte ptr (h.reset, ptr)
  | stores (skb skb' : SkBuff) (c : UInt8) (hcount : h.rxCount ≠ 0) (hskb : h.rxSkb = .live skb)
      (hdata : skb'.data = skb.data ++ [c]) (hmax : skb'.maxLen = skb.maxLen) :
      RecvCase h byte ptr (h.stored skb' c, ptr)
  | header (skb : SkBuff) (freed : UInt8) (hstate : h.rxState = .w4Hdr) (hcount : h.rxCount = 0)
      (hskb : h.rxSkb = .live skb) : RecvCase h byte ptr (recvHdr freed h skb, byte :: ptr)
  | expectsCrc (hstate : h.rxState = .w4Data) (hcount : h.rxCount = 0) :
      RecvCase h byte ptr (h.awaitCrc, byte :: ptr)
  | badCrc (hstate : h.rxState = .w4Crc) (hcount : h.rxCount = 0) :
      RecvCase h byte ptr (h.drop .w4PktDelimiter, byte :: ptr)
  | completes (skb : SkBuff) (h' : Hw) (hstate : h.rxState = .w4Data ∨ h.rxState = .w4Crc)
      (hcount : h.rxCount = 0) (hlen : 4 ≤ skb.data.length) (hexp : Expected h skb)
      (hdone : Completed h skb h') : RecvCase h byte ptr (h', byte :: ptr)

theorem h5StoreByte_ok {h : Hw} (hR : Receiving h) (hc : h.rxCount ≠ 0) (c byte : UInt8)
    (ptr : List UInt8) : ∃ h', h5StoreByte h c = .ok h' ∧ RecvCase h byte ptr (h', ptr) := by
  obtain ⟨skb, skb', hskb, hput, hdata, hmax⟩ := put_expected hR hc c
  refine ⟨h.stored skb' c, ?_, .stores skb skb' c hc hskb hdata hmax⟩
  simp only [h5StoreByte, hskb, hput, ok_bind]

theorem h5UnslipOneByte_ok {h : Hw} (hR : Receiving h) (hc : h.rxCount ≠ 0) (byte : UInt8)
    (ptr : List UInt8) :
    ∃ h', h5UnslipOneByte h byte = .ok h' ∧ RecvCase h byte ptr (h', ptr) := by
  cases hesc : h.rxEscState with
  | noEsc =>
    simp only [h5UnslipOneByte, hesc]
    by_cases hdb : byte = 0xdb
    · exact ⟨_, if_pos hdb, .escapes hc⟩
    · simp only [if_neg hdb]
      exact h5StoreByte_ok hR hc byte byte ptr
  | esc =>
    simp only [h5UnslipOneByte, hesc]
    cases slipBack byte with
    | none => exact ⟨_, rfl, .badCode⟩
    | some c => exact h5StoreByte_ok hR hc c byte ptr

/-- A completed packet, or the end of the program in its handler. -/
theorem complete_cases {h : Hw} {skb : SkBuff} (byte : UInt8) (ptr : List UInt8)
    (hstate : h.rxState = .w4Data ∨ h.rxState = .w4Crc) (hlen : 4 ≤ skb.data.length)
    (hcount : h.rxCount = 0) (hexp : Expected h skb) :
    (∃ r, (do
        let h ← h5CompleteRxPkt h skb
        .ok (h, byte :: ptr)) = .ok r ∧ RecvCase h byte ptr r) ∨
      (do
        let h ← h5CompleteRxPkt h skb
        .ok (h, byte :: ptr)) = Except.error Crash.exit := by
  by_cases hcut : CutFrame h skb
  · rw [h5CompleteRxPkt_exit hcut]
    exact .inr rfl
  · obtain ⟨h', hok, hdone⟩ := h5CompleteRxPkt_ok hlen hcut
    rw [hok]
    exact .inl ⟨_, rfl, .completes skb h' hstate hcount hlen hexp hdone⟩

theorem trim_trailer (skb : SkBuff) (hlen : 6 ≤ skb.data.length) :
    4 ≤ (skbTrim skb (skb.data.length - 2)).data.length ∧
      (skbTrim skb (skb.data.length - 2)).byte 0 = skb.byte 0 := by
  have hdata := skbTrim_data skb (skb.data.length - 2) (by omega)
  have hl : (skbTrim skb (skb.data.length - 2)).data.length = skb.data.length - 2 := by
    rw [hdata, List.length_take]
    omega
  refine ⟨by omega, ?_⟩
  rw [byte_eq (by omega), byte_eq (by omega), hdata, List.getD_eq_getElem?_getD,
    List.getElem?_take_of_lt (by omega), List.getD_eq_getElem?_getD]

/-- Between frames a delimiter opens a packet, and the byte behind it is the first of it. -/
theorem between_cases (freed : Hw → List UInt8 → UInt8) {h : Hw}
    (hstate : h.rxState = .w4PktDelimiter ∨ h.rxState = .w4PktStart) (hcount : h.rxCount = 0)
    (byte : UInt8) (ptr : List UInt8) :
    ∃ r, recvStep freed (h, byte :: ptr) = .ok r ∧ RecvCase h byte ptr r := by
  have hc : ¬ h.rxCount ≠ 0 := not_not.mpr hcount
  rcases hstate with hstate | hstate
  · by_cases hdelim : byte = 0xc0
    · refine ⟨({ h with rxState := .w4PktStart }, ptr), ?_, .skips _ (.inr rfl) hcount⟩
      simp only [recvStep, if_neg hc, hstate, if_pos hdelim]
    · have hself : ({ h with rxState := .w4PktDelimiter } : Hw) = h := by rw [← hstate]
      refine ⟨(h, ptr), ?_, ?_⟩
      · simp only [recvStep, if_neg hc, hstate, if_neg hdelim]
      · rw [← hself]
        exact .skips _ (.inl rfl) hcount
  · by_cases hdelim : byte = 0xc0
    · have hself : ({ h with rxState := .w4PktStart } : Hw) = h := by rw [← hstate]
      refine ⟨(h, ptr), ?_, ?_⟩
      · simp only [recvStep, if_neg hc, hstate, if_pos hdelim]
      · rw [← hself]
        exact .skips _ (.inr rfl) hcount
    · refine ⟨_, ?_, .opens hstate hcount⟩
      simp only [recvStep, if_neg hc, hstate, if_neg hdelim]

/-- **Every iteration of `h5_recv`.** From the invariant it does what `RecvCase` allows, and
nothing can end the program but a pull in the handler of a completed packet. -/
theorem recvStep_cases (freed : Hw → List UInt8 → UInt8) {h : Hw} (hR : Receiving h)
    (byte : UInt8) (ptr : List UInt8) :
    (∃ r, recvStep freed (h, byte :: ptr) = .ok r ∧ RecvCase h byte ptr r) ∨
      recvStep freed (h, byte :: ptr) = .error .exit := by
  by_cases hc : h.rxCount ≠ 0
  · left
    simp only [recvStep, if_pos hc]
    by_cases hdelim : byte = 0xc0
    · exact ⟨_, if_pos hdelim, .short⟩
    · obtain ⟨h', hok, hcase⟩ := h5UnslipOneByte_ok hR hc byte ptr
      rw [if_neg hdelim, hok, ok_bind]
      exact ⟨_, rfl, hcase⟩
  · have hcount : h.rxCount = 0 := not_not.mp hc
    cases hR with
    | between hstate _ => exact .inl (between_cases freed hstate hcount byte ptr)
    | hdr skb hskb _ hstate _ =>
      left
      refine ⟨_, ?_, .header skb (freed h (byte :: ptr)) hstate hcount hskb⟩
      simp only [recvStep, if_neg hc, hstate, hskb]
    | data skb hskb _ hstate hlen _ hexp =>
      simp only [recvStep, if_neg hc, hstate, hskb]
      -- two more bytes are expected, or the frame is complete
      by_cases hcrc : (hdrByte (skb.byte 0)).crc = true
      · exact .inl ⟨_, if_pos hcrc, .expectsCrc hstate hcount⟩
      · rw [if_neg hcrc]
        exact complete_cases byte ptr (.inl hstate) hlen hcount hexp
    | crc skb hskb _ hstate hlen hcnt hexp =>
      simp only [recvStep, if_neg hc, hstate, hskb]
      by_cases hbad : bitRev16 h.messageCrc ≠ h5GetCrc skb
      · exact .inl ⟨_, if_pos hbad, .badCrc hstate hcount⟩
      · obtain ⟨hlen', hbyte⟩ := trim_trailer skb (by omega)
        have hexp' : Expected h (skbTrim skb (skb.data.length - 2)) := by
          unfold Expected
          rw [hbyte]
          exact hexp
        rw [if_neg hbad]
        exact complete_cases byte ptr (.inr hstate) hlen' hcount hexp'

/-! ## The invariant is kept -/

theorem receiving_init : Receiving rtkInit := .between (.inl rfl) rfl

theorem Receiving.drop (h : Hw) {s : RxState} (hs : s = .w4PktDelimiter ∨ s = .w4PktStart) :
    Receiving (h.drop s) := .between hs rfl

/-- A byte put into the buffer is one the packet expected. -/
theorem Receiving.stored {h : Hw} (hR : Receiving h) {skb skb' : SkBuff} {c : UInt8}
    (hc : h.rxCount ≠ 0) (hskb : h.rxSkb = .live skb) (hdata : skb'.data = skb.data ++ [c])
    (hmax : skb'.maxLen = skb.maxLen) : Receiving (h.stored skb' c) := by
  have hlen : skb'.data.length = skb.data.length + 1 := by
    rw [hdata, List.length_append, List.length_singleton]
  have hcount : (h.stored skb' c).rxCount = h.rxCount - 1 := rfl
  cases hR with
  | between _ h0 => exact absurd h0 hc
  | hdr s hs hm hstate hsum =>
    cases hskb.symm.trans hs
    exact .hdr skb' rfl (hmax.trans hm) hstate (by omega)
  | data s hs hm hstate h4 hsum hexp =>
    cases hskb.symm.trans hs
    have hlp : skb'.payloadLen = skb.payloadLen := by
      rw [SkBuff.payloadLen, byte_of_data hdata (by omega), byte_of_data hdata (by omega)]
      rfl
    refine .data skb' rfl (hmax.trans hm) hstate (by omega) (by omega) ?_
    rw [Expected, byte_of_data hdata (by omega)]
    exact hexp
  | crc s hs hm hstate h4 hsum hexp =>
    cases hskb.symm.trans hs
    have hlp : skb'.payloadLen = skb.payloadLen := by
      rw [SkBuff.payloadLen, byte_of_data hdata (by omega), byte_of_data hdata (by omega)]
      rfl
    refine .crc skb' rfl (hmax.trans hm) hstate (by omega) (by omega) ?_
    rw [Expected, byte_of_data hdata (by omega)]
    exact hexp

/-- A header with a good checksum, of a reliable packet that is not the next in sequence. -/
def StrayHdr (h : Hw) (skb : SkBuff) : Prop :=
  hdrChecksum (skb.byte 0) (skb.byte 1) (skb.byte 2) = skb.byte 3 ∧
    (hdrByte (skb.byte 0)).reliable = true ∧ (hdrByte (skb.byte 0)).seq ≠ h.rxseqTxack

/-- A whole header is dropped, or the payload it announces is expected. -/
theorem recvHdr_cases (freed : UInt8) (h : Hw) (skb : SkBuff) :
    recvHdr freed h skb = h.drop .w4PktDelimiter ∨
    recvHdr freed h skb = h.outOfOrder ∨
    (StrayHdr h skb ∧ h.txIndex = h.totalNum ∧
      recvHdr freed h skb = h.outOfOrder.resynced (hdrByte freed).seq) ∨
    (Expected h skb ∧ recvHdr freed h skb = h.awaitData skb.payloadLen) := by
  simp only [recvHdr]
  split
  · exact .inl rfl
  next hsum =>
  split
  · next hseq =>
    split
    · next htx => exact .inr (.inr (.inl ⟨⟨not_not.mp hsum, hseq⟩, htx, rfl⟩))
    · exact .inr (.inl rfl)
  · next hseq =>
    refine .inr (.inr (.inr ⟨fun hrel => ?_, rfl⟩))
    by_contra hne
    exact hseq ⟨hrel, hne⟩

theorem Receiving.header {h : Hw} (hR : Receiving h) {skb : SkBuff} (freed : UInt8)
    (hstate : h.rxState = .w4Hdr) (hcount : h.rxCount = 0) (hskb : h.rxSkb = .live skb) :
    Receiving (recvHdr freed h skb) := by
  rcases recvHdr_cases freed h skb with hr | hr | ⟨-, -, hr⟩ | ⟨hexp, hr⟩
  · rw [hr]
    exact .drop h (.inl rfl)
  · rw [hr]
    exact .drop _ (.inl rfl)
  · rw [hr]
    exact .between (.inl rfl) rfl
  · rw [hr]
    cases hR with
    | between hs _ => rcases hs with hs | hs <;> cases hstate.symm.trans hs
    | hdr s hs hm _ hsum =>
      cases hskb.symm.trans hs
      refine .data skb hskb hm rfl (by omega) ?_ hexp
      show skb.data.length + skb.payloadLen = 4 + skb.payloadLen
      omega
    | data s hs hm hs' _ _ _ => cases hstate.symm.trans hs'
    | crc s hs hm hs' _ _ _ => cases hstate.symm.trans hs'

theorem Receiving.awaitCrc {h : Hw} (hR : Receiving h) (hstate : h.rxState = .w4Data)
    (hcount : h.rxCount = 0) : Receiving h.awaitCrc := by
  cases hR with
  | between hs _ => rcases hs with hs | hs <;> cases hstate.symm.trans hs
  | hdr s hs hm hs' _ => cases hstate.symm.trans hs'
  | data s hs hm _ h4 hsum hexp =>
    refine .crc s hs hm rfl (by omega) ?_ hexp
    show s.data.length + 2 = 6 + s.payloadLen
    omega
  | crc s hs hm hs' _ _ _ => cases hstate.symm.trans hs'

/-- **The receiver keeps its invariant** in every iteration. -/
theorem RecvCase.receiving {h h' : Hw} {byte : UInt8} {ptr l : List UInt8} (hR : Receiving h)
    (hcase : RecvCase h byte ptr (h', l)) : Receiving h' := by
  cases hcase with
  | skips s hs hcount => exact .between hs hcount
  | opens hstate hcount =>
    exact .hdr (skbAlloc 0x1005) rfl (skbAlloc_maxLen _) rfl (by simp [Hw.opened])
  | short => exact .drop h (.inr rfl)
  | escapes hcount =>
    cases hR with
    | between hs h0 => exact absurd h0 hcount
    | hdr s hs hm hs' hsum => exact .hdr s hs hm hs' hsum
    | data s hs hm hs' h4 hsum hexp => exact .data s hs hm hs' h4 hsum hexp
    | crc s hs hm hs' h4 hsum hexp => exact .crc s hs hm hs' h4 hsum hexp
  | badCode => exact .between (.inl rfl) rfl
  | stores skb skb' c hcount hskb hdata hmax => exact hR.stored hcount hskb hdata hmax
  | header skb freed hstate hcount hskb => exact hR.header freed hstate hcount hskb
  | expectsCrc hstate hcount => exact hR.awaitCrc hstate hcount
  | badCrc => exact .drop h (.inl rfl)
  | completes skb _ _ hcount _ _ hdone =>
    exact .between (.inl hdone.state) (hdone.count.trans hcount)

/-- An iteration from the invariant, taken apart by its outcome. -/
theorem recvStep_ok {freed : Hw → List UInt8 → UInt8} {h h' : Hw} {l l' : List UInt8}
    (hR : Receiving h) (hl : recvMore (h, l) = true)
    (hstep : recvStep freed (h, l) = .ok (h', l')) :
    ∃ byte ptr, l = byte :: ptr ∧ RecvCase h byte ptr (h', l') := by
  cases l with
  | nil => cases hl
  | cons byte ptr =>
    rcases recvStep_cases freed hR byte ptr with ⟨r, hok, hcase⟩ | hexit
    · cases hok.symm.trans hstep
      exact ⟨byte, ptr, rfl, hcase⟩
    · cases hexit.symm.trans hstep

/-- The invariant holds wherever `h5_recv` gets to in a chunk. -/
theorem receiving_reach {freed : Hw → List UInt8 → UInt8} {h h' : Hw} {chunk l : List UInt8}
    (hR : Receiving h) (hreach : Reach recvMore (recvStep freed) (h, chunk) (h', l)) :
    Receiving h' := by
  refine hreach.invariant (I := fun s => Receiving s.1) hR ?_
  rintro ⟨t, l⟩ ⟨u, m⟩ ht hmore hstep
  obtain ⟨byte, ptr, -, hcase⟩ := recvStep_ok ht hmore hstep
  exact hcase.receiving ht

/-! ## A chunk is consumed -/

/-- The iterations that may pass in a state, none of its bytes expected any more, before the
next byte is consumed. -/
def RxState.rank : RxState → Nat
  | .w4PktDelimiter => 0
  | .w4PktStart => 1
  | .w4Hdr => 3
  | .w4Data => 2
  | .w4Crc => 1

def Hw.pending (h : Hw) : Nat := if h.rxCount ≠ 0 then 0 else h.rxState.rank

theorem Hw.pending_le (h : Hw) : h.pending ≤ 3 := by
  unfold pending
  split
  · exact Nat.zero_le 3
  · cases h.rxState <;> decide

theorem Hw.pending_of_count {h : Hw} (hc : h.rxCount ≠ 0) : h.pending = 0 := if_pos hc

theorem Hw.pending_of_state {h : Hw} {s : RxState} (hc : h.rxCount = 0) (hs : h.rxState = s) :
    h.pending = s.rank := by
  rw [pending, if_neg (not_not.mpr hc), hs]

theorem recvHdr_pending (freed : UInt8) (h : Hw) (skb : SkBuff) :
    (recvHdr freed h skb).pending ≤ 2 := by
  rcases recvHdr_cases freed h skb with hr | hr | ⟨-, -, hr⟩ | ⟨-, hr⟩
  · rw [hr, Hw.pending_of_state rfl rfl]
    exact Nat.zero_le 2
  · rw [hr, Hw.pending_of_state rfl rfl]
    exact Nat.zero_le 2
  · rw [hr, Hw.pending_of_state rfl rfl]
    exact Nat.zero_le 2
  · rw [hr, Hw.pending]
    split
    · exact Nat.zero_le 2
    · exact Nat.le_refl 2

/-- An iteration consumes a byte, or there are fewer of them to come before it does. -/
theorem RecvCase.progress {h h' : Hw} {byte : UInt8} {ptr l : List UInt8}
    (hcase : RecvCase h byte ptr (h', l)) :
    5 * l.length + h'.pending < 5 * (byte :: ptr).length + h.pending := by
  -- a byte weighs 5, more than the states a turn may go through without taking one
  have hle := h'.pending_le
  rw [List.length_cons]
  cases hcase with
  | skips s hs hcount => omega
  | opens hstate hcount =>
    have : h.opened.pending = 0 := Hw.pending_of_count (by decide : (4 : Nat) ≠ 0)
    have : h.pending = 1 := Hw.pending_of_state hcount hstate
    rw [List.length_cons]
    omega
  | short => omega
  | escapes => omega
  | badCode => omega
  | stores => omega
  | header skb freed hstate hcount hskb =>
    have : h.pending = 3 := Hw.pending_of_state hcount hstate
    have := recvHdr_pending freed h skb
    rw [List.length_cons]
    omega
  | expectsCrc hstate hcount =>
    have : h.pending = 2 := Hw.pending_of_state hcount hstate
    have : h.awaitCrc.pending = 0 := Hw.pending_of_count (by decide : (2 : Nat) ≠ 0)
    rw [List.length_cons]
    omega
  | badCrc hstate hcount =>
    have : h.pending = 1 := Hw.pending_of_state hcount hstate
    have : (h.drop .w4PktDelimiter).pending = 0 := Hw.pending_of_state rfl rfl
    rw [List.length_cons]
    omega
  | completes skb _ hstate hcount _ _ hdone =>
    have : h'.pending = 0 := Hw.pending_of_state (hdone.count.trans hcount) hdone.state
    have : 1 ≤ h.pending := by
      rcases hstate with hstate | hstate
      · rw [Hw.pending_of_state hcount hstate]
        exact Nat.le_succ 1
      · rw [Hw.pending_of_state hcount hstate]
        exact Nat.le_refl 1
    rw [List.length_cons]
    omega

/-- `h5_recv` comes to an end on every chunk: all of it is consumed, or a handler ended the
program. -/
theorem received_total (freed : Hw → List UInt8 → UInt8) {h : Hw} (hR : Receiving h)
    (chunk : List UInt8) :
    (∃ h', Received freed h chunk (.ok (h', []))) ∨ Received freed h chunk (.error .exit) := by
  have hμ : ∀ t u, Reach recvMore (recvStep freed) (h, chunk) t → recvMore t = true →
      recvStep freed t = .ok u → 5 * u.2.length + u.1.pending < 5 * t.2.length + t.1.pending := by
    rintro ⟨t, l⟩ ⟨u, m⟩ hreach hmore hstep
    obtain ⟨byte, ptr, rfl, hcase⟩ := recvStep_ok (receiving_reach hR hreach) hmore hstep
    exact hcase.progress
  obtain ⟨r, hr⟩ := whileLoop_terminates
    (fun s : Hw × List UInt8 => 5 * s.2.length + s.1.pending) hμ (Nat.le_refl _)
  cases r with
  | ok t =>
    obtain ⟨h', l⟩ := t
    obtain ⟨-, hdone⟩ := reach_of_whileLoop hr
    have hl : l = [] := by simpa [recvMore] using hdone
    subst hl
    exact .inl ⟨h', _, hr⟩
  | error e =>
    obtain ⟨⟨t, l⟩, hreach, hmore, herr⟩ := reach_of_whileLoop_error hr
    have hRt := receiving_reach hR hreach
    cases l with
    | nil => cases hmore
    | cons byte ptr =>
      rcases recvStep_cases freed hRt byte ptr with ⟨s, hok, -⟩ | hexit
      · cases hok.symm.trans herr
      · cases hexit.symm.trans herr
        exact .inr ⟨_, hr⟩

end Lichee.Bluetooth

import Lichee.Base.Memory
import Lichee.Bluetooth.Receiver

/- The handlers of a frame, with every pull and every read held against the bytes the frame has.
   None of them looks how many there are: each link state needs so many bytes of payload, a
   command complete event as many as its opcode and status ask for, and a frame that was received
   in good order may have fewer (`handlers_inside_iff`). Where a frame has them, the receiver does
   what these handlers do (`recvStep_inside`). -/
namespace Lichee.Bluetooth
open Base

/-! ## The handlers, bounded -/

/-- What stops a bounded handler: an access outside the frame, or what ends the program. -/
inductive Stop where
  | outside (fault : Fault)
  | crash (c : Crash)
  deriving DecidableEq, Repr

/-- `skb->data[i]` -/
def readIn (skb : SkBuff) (i : Nat) : Except Stop UInt8 := (load8 skb.data i).mapError .outside

/-- `*(int*)&skb->data[i]` -/
def readIntIn (skb : SkBuff) (i : Nat) : Except Stop UInt32 :=
  (load32 skb.data i).mapError .outside

/-- `skb_pull` of bytes the frame has. -/
def pullIn (skb : SkBuff) (len : Nat) : Except Stop SkBuff :=
  match skbPull skb len with
  | some skb => .ok skb
  | none => .error (.outside ⟨skb.data.length⟩)

/-- `!memcmp(skb->data, bytes, 2)` -/
def startsIn (skb : SkBuff) (bytes : List UInt8) : Except Stop Bool := do
  let a ← readIn skb 0
  let b ← readIn skb 1
  .ok ([a, b] == bytes)

def ackIn (h : Hw) : Except Stop Hw := (rtkSendPureAckDown h).mapError .crash

def HCI_CMD_READ_BD_ADDR : UInt16 := 0x1009

/-- `case HCI_CMD_READ_BD_ADDR`: the debug message prints the address. -/
def bdAddrIn (h : Hw) (skb : SkBuff) : Except Stop Hw := do
  let status ← readIn skb 0
  if status = 0 then do
    let _ ← readIntIn skb 1
    let _ ← readIntIn skb 5
    .ok h
  else .ok h

/-- `case HCI_VENDOR_READ_LMP_VERISION` -/
def lmpVersionIn (h : Hw) (skb : SkBuff) : Except Stop Hw := do
  let status ← readIn skb 0
  let h := { h with hciVersionCmdState := .eventReceived, hostLastCmd := none }
  if status = 0 then do
    let lo ← readIn skb 7
    let hi ← readIn skb 8
    .ok { h with lmpVersion := lo.toUInt16 ||| hi.toUInt16 <<< 8 }
  else .ok h

/-- `case HCI_VENDOR_READ_RTK_ROM_VERISION` -/
def romVersionIn (h : Hw) (skb : SkBuff) : Except Stop Hw := do
  let status ← readIn skb 0
  let h := { h with romVersionCmdState := .eventReceived, hostLastCmd := none }
  if status = 0 then do
    let eversion ← readIn skb 1
    .ok { h with eversion := eversion }
  else .ok { h with eversion := if status = 1 then 0 else h.eversion }

/-- `switch (opcode)`, of what a command returned. -/
def cmdReturnIn (opcode : UInt16) (h : Hw) (skb : SkBuff) : Except Stop Hw :=
  if opcode = HCI_VENDOR_CHANGE_BDRATE then do
    let _ ← readIn skb 0
    .ok { h with hostLastCmd := none, linkEstabState := .patch }
  else if opcode = HCI_CMD_READ_BD_ADDR then bdAddrIn h skb
  else if opcode = HCI_VENDOR_READ_LMP_VERISION then lmpVersionIn h skb
  else if opcode = HCI_VENDOR_READ_RTK_ROM_VERISION then romVersionIn h skb
  else .ok h

/-- `hci_event_cmd_complete` -/
def hciEventCmdCompleteIn (h : Hw) (skb : SkBuff) : Except Stop Hw := do
  let skb ← pullIn skb HCI_EVENT_HDR_SIZE
  let lo ← readIn skb 1
  let hi ← readIn skb 2
  let skb ← pullIn skb CMD_COMPLETE_SIZE
  cmdReturnIn (lo.toUInt16 + hi.toUInt16 <<< 8) h skb

/-- The part of `hci_recv_frame` for the state `H5_SYNC`. -/
def syncFrameIn (h : Hw) (skb : SkBuff) : Except Stop Hw := do
  if ← startsIn skb h5sync then .ok (h.note (.wrote h5SyncRespPkt))
  else if ← startsIn skb h5syncresp then .ok { h with linkEstabState := .config }
  else .ok h

/-- That for `H5_CONFIG`. -/
def configFrameIn (h : Hw) (skb : SkBuff) : Except Stop Hw := do
  if ← startsIn skb h5sync then .ok (h.note (.wrote h5SyncRespPkt))
  else if ← startsIn skb h5conf then .ok (h.note (.wrote h5ConfRespPktToCtrl))
  else if ← startsIn skb h5confresp then .ok { h with linkEstabState := .init }
  else ackIn h

/-- That for `H5_INIT`. -/
def initFrameIn (h : Hw) (skb : SkBuff) : Except Stop Hw := do
  let evt ← readIn skb 0
  let h ← if evt = cmdCompleteEvtCode then hciEventCmdCompleteIn h skb else .ok h
  let h ← ackIn h
  let h ← ackIn h
  ackIn h

/-- That for `H5_PATCH`. -/
def patchFrameIn (h : Hw) (skb : SkBuff) : Except Stop Hw := do
  let index ← readIn skb 6
  let rxIndex : Int := (index &&& 0x7f).toNat
  .ok { h with
    rxIndex := rxIndex
    linkEstabState := if rxIndex = h.totalNum.toNat then .active else .patch }

/-- `hci_recv_frame` -/
def hciRecvFrameIn (h : Hw) (skb : SkBuff) : Except Stop Hw :=
  match h.linkEstabState with
  | .sync => syncFrameIn h skb
  | .config => configFrameIn h skb
  | .init => initFrameIn h skb
  | .patch => patchFrameIn h skb
  | .active => .ok h

/-- `h5_complete_rx_pkt` -/
def h5CompleteRxPktIn (h : Hw) (skb : SkBuff) : Except Stop Hw := do
  let _ ← readIn skb 0
  let type ← readIn skb 1
  let h := h.acked skb
  let h ← if passUp (hdrPktType type) then do
      let skb ← pullIn skb 4
      hciRecvFrameIn h skb
    else .ok h
  .ok { h with rxState := .w4PktDelimiter, rxSkb := .null }

/-! ## What a payload needs -/

/-- The bytes that are read of what a command returned. -/
def returnNeeds (opcode : UInt16) (status : UInt8) : Nat :=
  if opcode = HCI_VENDOR_CHANGE_BDRATE then 1
  else if opcode = HCI_CMD_READ_BD_ADDR then if status = 0 then 9 else 1
  else if opcode = HCI_VENDOR_READ_LMP_VERISION then if status = 0 then 9 else 1
  else if opcode = HCI_VENDOR_READ_RTK_ROM_VERISION then if status = 0 then 2 else 1
  else 0

/-- The bytes a command complete event is read to: its headers, and what the command returned. -/
def eventNeeds (payload : List UInt8) : Nat :=
  5 + returnNeeds ((byteAt payload 3).toUInt16 + (byteAt payload 4).toUInt16 <<< 8)
    (byteAt payload 5)

/-- The bytes a payload is read to in a link state. -/
def payloadNeeds (state : LinkState) (payload : List UInt8) : Nat :=
  match state with
  | .sync => 2
  | .config => 2
  | .init => if byteAt payload 0 = cmdCompleteEvtCode then eventNeeds payload else 1
  | .patch => 7
  | .active => 0

/-- The bytes of payload a frame needs. -/
def frameNeeds (state : LinkState) (frame : List UInt8) : Nat :=
  if passUp (hdrPktType (byteAt frame 1)) then payloadNeeds state (frame.drop 4) else 0

/-! ## Bounded accesses -/

section Accesses
variable {α : Type} {skb : SkBuff} {i len : Nat}

theorem readIn_eq (h : i < skb.data.length) : readIn skb i = .ok (byteAt skb.data i) := by
  rw [readIn, load8_eq h]
  rfl

/-- A computation that starts with a read goes through where the byte is in the frame. -/
theorem readIn_bind {f : UInt8 → Except Stop α} : (∃ a, (readIn skb i >>= f) = .ok a) ↔
    i < skb.data.length ∧ ∃ a, f (byteAt skb.data i) = .ok a := by
  by_cases h : i < skb.data.length
  · rw [readIn_eq h, ok_bind]
    exact ⟨fun ha => ⟨h, ha⟩, fun ha => ha.2⟩
  · rw [readIn, load8_fault (Nat.not_lt.mp h)]
    exact iff_of_false (fun ⟨a, ha⟩ => by cases ha) fun ha => h ha.1

theorem readIntIn_bind {f : UInt32 → Except Stop α} : (∃ a, (readIntIn skb i >>= f) = .ok a) ↔
    i + 4 ≤ skb.data.length ∧ ∃ a, f (word skb.data i) = .ok a := by
  by_cases h : i + 4 ≤ skb.data.length
  · rw [readIntIn, load32_eq h]
    exact ⟨fun ha => ⟨h, ha⟩, fun ha => ha.2⟩
  · refine iff_of_false (fun ⟨a, ha⟩ => ?_) fun ha => h ha.1
    obtain ⟨v, hv, -⟩ := bind_eq_ok.mp ha
    cases hload : load32 skb.data i with
    | error e =>
      rw [readIntIn, hload] at hv
      cases hv
    | ok w =>
      have hin := (inside_of_load32 hload).2
      omega

theorem pullIn_eq (h : len ≤ skb.data.length) :
    ∃ skb', pullIn skb len = .ok skb' ∧ skbPull skb len = some skb' ∧
      skb'.data = skb.data.drop len := by
  obtain ⟨skb', hpull, hdata⟩ := skbPull_some skb len h
  refine ⟨skb', ?_, hpull, hdata⟩
  rw [pullIn, hpull]

theorem pullIn_bind {f : SkBuff → Except Stop α} : (∃ a, (pullIn skb len >>= f) = .ok a) ↔
    ∃ skb', pullIn skb len = .ok skb' ∧ len ≤ skb.data.length ∧
      skb'.data = skb.data.drop len ∧ ∃ a, f skb' = .ok a := by
  by_cases h : len ≤ skb.data.length
  · obtain ⟨skb', hpull, -, hdata⟩ := pullIn_eq h
    rw [hpull, ok_bind]
    refine ⟨fun ha => ⟨skb', rfl, h, hdata, ha⟩, fun ⟨s, hs, _, _, ha⟩ => ?_⟩
    cases hs
    exact ha
  · have hpull : pullIn skb len = .error (.outside ⟨skb.data.length⟩) := by
      rw [pullIn, skbPull_none skb len (Nat.not_le.mp h)]
    rw [hpull]
    exact iff_of_false (fun ⟨a, ha⟩ => by cases ha) fun ⟨_, _, hlen, _⟩ => h hlen

theorem byteAt_drop (l : List UInt8) (n i : Nat) : byteAt (l.drop n) i = byteAt l (n + i) := by
  rw [byteAt, byteAt, List.getD_eq_getElem?_getD, List.getElem?_drop, List.getD_eq_getElem?_getD]

/-- A comparison of two bytes. -/
theorem startsIn_bind {bytes : List UInt8} {f : Bool → Except Stop α} :
    (∃ a, (startsIn skb bytes >>= f) = .ok a) ↔
      2 ≤ skb.data.length ∧ ∃ a, f ([byteAt skb.data 0, byteAt skb.data 1] == bytes) = .ok a := by
  rw [startsIn]
  simp only [bind_assoc, readIn_bind, ok_bind]
  refine ⟨fun ⟨_, h, ha⟩ => ⟨h, ha⟩, fun ⟨h, ha⟩ => ⟨by omega, h, ha⟩⟩

theorem ackIn_ok (h : Hw) : ∃ h', ackIn h = .ok h' := by
  obtain ⟨h', hok, -⟩ := rtkSendPureAckDown_ok h
  refine ⟨h', ?_⟩
  rw [ackIn, hok]
  rfl

end Accesses

/-! ## Each handler goes through where the payload has the bytes it needs -/

section Handlers
variable {h : Hw} {skb : SkBuff}

theorem bdAddrIn_iff : (∃ h', bdAddrIn h skb = .ok h') ↔
    (if byteAt skb.data 0 = 0 then 9 else 1) ≤ skb.data.length := by
  rw [bdAddrIn, readIn_bind]
  split
  · simp only [readIntIn_bind, Except.ok.injEq, exists_eq', and_true]
    omega
  · simp only [Except.ok.injEq, exists_eq', and_true]
    omega

theorem lmpVersionIn_iff : (∃ h', lmpVersionIn h skb = .ok h') ↔
    (if byteAt skb.data 0 = 0 then 9 else 1) ≤ skb.data.length := by
  rw [lmpVersionIn, readIn_bind]
  dsimp only
  split
  · simp only [readIn_bind, Except.ok.injEq, exists_eq', and_true]
    omega
  · simp only [Except.ok.injEq, exists_eq', and_true]
    omega

theorem romVersionIn_iff : (∃ h', romVersionIn h skb = .ok h') ↔
    (if byteAt skb.data 0 = 0 then 2 else 1) ≤ skb.data.length := by
  rw [romVersionIn, readIn_bind]
  dsimp only
  split
  · simp only [readIn_bind, Except.ok.injEq, exists_eq', and_true]
    omega
  · simp only [Except.ok.injEq, exists_eq', and_true]
    omega

theorem cmdReturnIn_iff (opcode : UInt16) : (∃ h', cmdReturnIn opcode h skb = .ok h') ↔
    returnNeeds opcode (byteAt skb.data 0) ≤ skb.data.length := by
  rw [cmdReturnIn, returnNeeds]
  split
  · simp only [readIn_bind, Except.ok.injEq, exists_eq', and_true]
    omega
  split
  · exact bdAddrIn_iff
  split
  · exact lmpVersionIn_iff
  split
  · exact romVersionIn_iff
  · exact iff_of_true ⟨h, rfl⟩ (Nat.zero_le _)

theorem hciEventCmdCompleteIn_iff : (∃ h', hciEventCmdCompleteIn h skb = .ok h') ↔
    eventNeeds skb.data ≤ skb.data.length := by
  rw [hciEventCmdCompleteIn, eventNeeds]
  by_cases hlen : 5 ≤ skb.data.length
  · obtain ⟨s₁, hs₁, -, hdata₁⟩ := pullIn_eq
      (show HCI_EVENT_HDR_SIZE ≤ skb.data.length by unfold HCI_EVENT_HDR_SIZE; omega)
    have hlen₁ : s₁.data.length = skb.data.length - 2 := by rw [hdata₁, List.length_drop]
    obtain ⟨s₂, hs₂, -, hdata₂⟩ := pullIn_eq
      (show CMD_COMPLETE_SIZE ≤ s₁.data.length by unfold CMD_COMPLETE_SIZE; omega)
    have hlen₂ : s₂.data.length = skb.data.length - 5 := by
      rw [hdata₂, List.length_drop, hlen₁]
      unfold CMD_COMPLETE_SIZE
      omega
    have hbyte₁ : ∀ i, byteAt s₁.data i = byteAt skb.data (2 + i) := by
      intro i
      rw [hdata₁, byteAt_drop]
    have hbyte₂ : ∀ i, byteAt s₂.data i = byteAt skb.data (2 + (3 + i)) := by
      intro i
      rw [hdata₂, byteAt_drop, hbyte₁]
    rw [hs₁, ok_bind, readIn_eq (by omega), ok_bind, readIn_eq (by omega), ok_bind, hs₂, ok_bind,
      cmdReturnIn_iff, hbyte₂, hlen₂, hbyte₁, hbyte₁]
    exact (Nat.le_sub_iff_add_le' hlen)
  · refine iff_of_false ?_ (by omega)
    rw [pullIn_bind]
    intro ⟨s₁, _, _, hdata₁, h₁⟩
    rw [readIn_bind] at h₁
    obtain ⟨-, h₁⟩ := h₁
    rw [readIn_bind, hdata₁, List.length_drop] at h₁
    have := h₁.1
    unfold HCI_EVENT_HDR_SIZE at this
    omega

/-- A handler that starts with a comparison of two bytes, and goes through on either answer. -/
theorem startsIn_iff {bytes : List UInt8} {x y : Except Stop Hw}
    (hx : 2 ≤ skb.data.length → ∃ h', x = .ok h') (hy : 2 ≤ skb.data.length → ∃ h', y = .ok h') :
    (∃ h', (do if ← startsIn skb bytes then x else y) = .ok h') ↔ 2 ≤ skb.data.length := by
  rw [startsIn_bind]
  refine ⟨fun ⟨hlen, _⟩ => hlen, fun hlen => ⟨hlen, ?_⟩⟩
  split
  · exact hx hlen
  · exact hy hlen

theorem syncFrameIn_iff : (∃ h', syncFrameIn h skb = .ok h') ↔ 2 ≤ skb.data.length := by
  refine startsIn_iff (fun _ => ⟨_, rfl⟩) (startsIn_iff (fun _ => ⟨_, rfl⟩) ?_).mpr
  exact fun _ => ⟨_, rfl⟩

theorem configFrameIn_iff : (∃ h', configFrameIn h skb = .ok h') ↔ 2 ≤ skb.data.length := by
  refine startsIn_iff (fun _ => ⟨_, rfl⟩) (startsIn_iff (fun _ => ⟨_, rfl⟩) ?_).mpr
  exact (startsIn_iff (fun _ => ⟨_, rfl⟩) fun _ => ackIn_ok h).mpr

/-- Three pure acks go out behind whatever the handler did. -/
theorem acksIn_ok (h : Hw) : ∃ h', (do
    let h ← ackIn h
    let h ← ackIn h
    ackIn h) = .ok h' := by
  obtain ⟨h₁, e₁⟩ := ackIn_ok h
  obtain ⟨h₂, e₂⟩ := ackIn_ok h₁
  rw [e₁, ok_bind, e₂, ok_bind]
  exact ackIn_ok h₂

theorem initFrameIn_iff : (∃ h', initFrameIn h skb = .ok h') ↔
    (if byteAt skb.data 0 = cmdCompleteEvtCode then eventNeeds skb.data else 1) ≤
      skb.data.length := by
  rw [initFrameIn, readIn_bind]
  split
  · rw [bind_returns acksIn_ok, hciEventCmdCompleteIn_iff]
    unfold eventNeeds
    omega
  · rw [ok_bind]
    exact ⟨fun hlen => hlen.1, fun hlen => ⟨hlen, acksIn_ok h⟩⟩

theorem patchFrameIn_iff : (∃ h', patchFrameIn h skb = .ok h') ↔ 7 ≤ skb.data.length := by
  rw [patchFrameIn, readIn_bind]
  exact ⟨fun hlen => hlen.1, fun hlen => ⟨hlen, _, rfl⟩⟩

theorem hciRecvFrameIn_iff : (∃ h', hciRecvFrameIn h skb = .ok h') ↔
    payloadNeeds h.linkEstabState skb.data ≤ skb.data.length := by
  rw [hciRecvFrameIn]
  cases h.linkEstabState with
  | sync => exact syncFrameIn_iff
  | config => exact configFrameIn_iff
  | init => exact initFrameIn_iff
  | patch => exact patchFrameIn_iff
  | active => exact iff_of_true ⟨h, rfl⟩ (Nat.zero_le _)

/-- A frame with its header is handled inside it just where its payload has the bytes it needs. -/
theorem h5CompleteRxPktIn_iff (hlen : 4 ≤ skb.data.length) :
    (∃ h', h5CompleteRxPktIn h skb = .ok h') ↔
      frameNeeds h.linkEstabState skb.data ≤ skb.data.length - 4 := by
  rw [h5CompleteRxPktIn, readIn_eq (by omega), ok_bind, readIn_eq (by omega), ok_bind, frameNeeds]
  dsimp only
  split
  · obtain ⟨s, hs, -, hdata⟩ := pullIn_eq hlen
    rw [hs, ok_bind, bind_returns fun h => ⟨_, rfl⟩, hciRecvFrameIn_iff, hdata, List.length_drop]
    exact Iff.rfl
  · rw [ok_bind]
    exact iff_of_true ⟨_, rfl⟩ (Nat.zero_le _)

end Handlers

/-! ## Inside the frame they are the handlers of the receiver -/

section Agree
variable {h h' : Hw} {skb : SkBuff} {i : Nat}

theorem byte_of_readIn {v : UInt8} (hv : readIn skb i = .ok v) : v = skb.byte i := by
  have hi : i < skb.data.length := by
    by_contra hle
    rw [readIn, load8_fault (Nat.not_lt.mp hle)] at hv
    cases hv
  rw [readIn_eq hi] at hv
  cases hv
  rw [byte_eq hi, byteAt]

theorem starts_of_startsIn {bytes : List UInt8} {b : Bool} (hb : startsIn skb bytes = .ok b) :
    b = skb.starts bytes := by
  have hlen : 2 ≤ skb.data.length := by
    have hreturns : ∃ a, (startsIn skb bytes >>= fun b => (.ok b : Except Stop Bool)) = .ok a :=
      ⟨b, by rw [hb, ok_bind]⟩
    exact (startsIn_bind.mp hreturns).1
  have htwo : skb.block.take 2 = [byteAt skb.data 0, byteAt skb.data 1] := by
    rw [SkBuff.block, List.take_append_of_le_length hlen]
    obtain ⟨a, l, hd⟩ := List.exists_cons_of_length_pos (show 0 < skb.data.length by omega)
    rw [hd, List.length_cons] at hlen
    obtain ⟨b, t, rfl⟩ := List.exists_cons_of_length_pos (show 0 < l.length by omega)
    rw [hd]
    rfl
  rw [startsIn, readIn_eq (by omega), ok_bind, readIn_eq (by omega), ok_bind] at hb
  cases hb
  rw [SkBuff.starts, htwo]

theorem pull_of_pullIn {len : Nat} {s : SkBuff} (hs : pullIn skb len = .ok s) :
    pull skb len = .ok s := by
  rw [pullIn] at hs
  rw [pull]
  cases hp : skbPull skb len with
  | none =>
    rw [hp] at hs
    cases hs
  | some s' =>
    rw [hp] at hs
    cases hs
    rfl

theorem ackIn_agrees (hok : ackIn h = .ok h') : rtkSendPureAckDown h = .ok h' := by
  rw [ackIn] at hok
  cases hack : rtkSendPureAckDown h with
  | error e =>
    rw [hack] at hok
    cases hok
  | ok h₁ =>
    rw [hack] at hok
    cases hok
    rfl

theorem acksIn_agrees (hok : (do
    let h ← ackIn h
    let h ← ackIn h
    ackIn h) = .ok h') : (do
    let h ← rtkSendPureAckDown h
    let h ← rtkSendPureAckDown h
    rtkSendPureAckDown h) = .ok h' := by
  obtain ⟨h₁, hack₁, hok⟩ := bind_eq_ok.mp hok
  obtain ⟨h₂, hack₂, hok⟩ := bind_eq_ok.mp hok
  rw [ackIn_agrees hack₁, ok_bind, ackIn_agrees hack₂, ok_bind]
  exact ackIn_agrees hok

theorem bdAddrIn_agrees (hok : bdAddrIn h skb = .ok h') : h' = h := by
  obtain ⟨status, -, hok⟩ := bind_eq_ok.mp hok
  split at hok
  · obtain ⟨lo, -, hok⟩ := bind_eq_ok.mp hok
    obtain ⟨hi, -, hok⟩ := bind_eq_ok.mp hok
    cases hok
    rfl
  · cases hok
    rfl

theorem lmpVersionIn_agrees (hok : lmpVersionIn h skb = .ok h') :
    h' = { h with
      hciVersionCmdState := .eventReceived
      lmpVersion := if skb.byte 0 = 0 then
        (skb.byte 7).toUInt16 ||| (skb.byte 8).toUInt16 <<< 8 else h.lmpVersion
      hostLastCmd := none } := by
  obtain ⟨status, hstatus, hok⟩ := bind_eq_ok.mp hok
  obtain rfl := byte_of_readIn hstatus
  dsimp only at hok
  split at hok
  · next h0 =>
    obtain ⟨lo, hlo, hok⟩ := bind_eq_ok.mp hok
    obtain ⟨hi, hhi, hok⟩ := bind_eq_ok.mp hok
    obtain rfl := byte_of_readIn hlo
    obtain rfl := byte_of_readIn hhi
    cases hok
    rw [if_pos h0]
  · next h0 =>
    cases hok
    rw [if_neg h0]

theorem romVersionIn_agrees (hok : romVersionIn h skb = .ok h') :
    h' = { h with
      romVersionCmdState := .eventReceived
      eversion := if skb.byte 0 = 0 then skb.byte 1 else if skb.byte 0 = 1 then 0 else h.eversion
      hostLastCmd := none } := by
  obtain ⟨status, hstatus, hok⟩ := bind_eq_ok.mp hok
  obtain rfl := byte_of_readIn hstatus
  dsimp only at hok
  split at hok
  · next h0 =>
    obtain ⟨eversion, heversion, hok⟩ := bind_eq_ok.mp hok
    obtain rfl := byte_of_readIn heversion
    cases hok
    rw [if_pos h0]
  · next h0 =>
    cases hok
    rw [if_neg h0]

theorem hciEventCmdCompleteIn_agrees (hok : hciEventCmdCompleteIn h skb = .ok h') :
    hciEventCmdComplete h skb = .ok h' := by
  obtain ⟨s₁, hs₁, hok⟩ := bind_eq_ok.mp hok
  obtain ⟨lo, hlo, hok⟩ := bind_eq_ok.mp hok
  obtain ⟨hi, hhi, hok⟩ := bind_eq_ok.mp hok
  obtain ⟨s₂, hs₂, hok⟩ := bind_eq_ok.mp hok
  obtain rfl := byte_of_readIn hlo
  obtain rfl := byte_of_readIn hhi
  simp only [hciEventCmdComplete, pull_of_pullIn hs₁, pull_of_pullIn hs₂, ok_bind]
  show (if s₁.le16 1 = _ then _ else _) = _
  change cmdReturnIn (s₁.le16 1) h s₂ = .ok h' at hok
  generalize s₁.le16 1 = opcode at hok ⊢
  rw [cmdReturnIn] at hok
  split at hok
  · next hop =>
    obtain ⟨status, -, hok⟩ := bind_eq_ok.mp hok
    cases hok
    rw [if_pos hop]
  next hchange =>
  rw [if_neg hchange]
  split at hok
  · next hop =>
    subst hop
    rw [if_neg (by decide), if_neg (by decide), bdAddrIn_agrees hok]
  next hbd =>
  split at hok
  · next hop => rw [if_pos hop, lmpVersionIn_agrees hok]
  next hlmp =>
  rw [if_neg hlmp]
  split at hok
  · next hop => rw [if_pos hop, romVersionIn_agrees hok]
  · next hrom =>
    cases hok
    rw [if_neg hrom]

/-- A frame whose first two bytes were compared is handled as one whose block was. -/
theorem startsIn_agrees {ε : Type} {bytes : List UInt8} {x y : Except Stop Hw}
    {x' y' : Except ε Hw}
    (hok : (do if ← startsIn skb bytes then x else y) = .ok h')
    (hx : x = .ok h' → x' = .ok h') (hy : y = .ok h' → y' = .ok h') :
    (if skb.starts bytes then x' else y') = .ok h' := by
  obtain ⟨b, hb, hok⟩ := bind_eq_ok.mp hok
  obtain rfl := starts_of_startsIn hb
  split at hok
  · next hstarts =>
    rw [if_pos hstarts]
    exact hx hok
  · next hstarts =>
    rw [if_neg hstarts]
    exact hy hok

theorem ok_agrees {ε : Type} {a : Hw} (hok : (.ok a : Except Stop Hw) = .ok h') :
    (.ok a : Except ε Hw) = .ok h' := by
  cases hok
  rfl

theorem hciRecvFrameIn_agrees (hok : hciRecvFrameIn h skb = .ok h') :
    hciRecvFrame h skb = .ok h' := by
  cases hl : h.linkEstabState with
  | sync =>
    simp only [hciRecvFrameIn, hl] at hok
    simp only [hciRecvFrame, hl]
    refine startsIn_agrees hok ok_agrees fun hok => ?_
    exact startsIn_agrees hok ok_agrees ok_agrees
  | config =>
    simp only [hciRecvFrameIn, hl] at hok
    simp only [hciRecvFrame, hl]
    refine startsIn_agrees hok ok_agrees fun hok => ?_
    refine startsIn_agrees hok ok_agrees fun hok => ?_
    exact startsIn_agrees hok ok_agrees ackIn_agrees
  | init =>
    simp only [hciRecvFrameIn, hl] at hok
    simp only [hciRecvFrame, hl]
    -- a read that succeeds gives the byte that the unchecked one gives
    obtain ⟨evt, hevt, hok⟩ := bind_eq_ok.mp hok
    obtain rfl := byte_of_readIn hevt
    split at hok
    · next hcode =>
      obtain ⟨h₁, hevent, hok⟩ := bind_eq_ok.mp hok
      rw [if_pos hcode, hciEventCmdCompleteIn_agrees hevent, ok_bind]
      exact acksIn_agrees hok
    · next hcode =>
      rw [ok_bind] at hok
      rw [if_neg hcode, ok_bind]
      exact acksIn_agrees hok
  | patch =>
    simp only [hciRecvFrameIn, hl] at hok
    simp only [hciRecvFrame, hl]
    obtain ⟨index, hindex, hok⟩ := bind_eq_ok.mp hok
    obtain rfl := byte_of_readIn hindex
    exact ok_agrees hok
  | active =>
    simp only [hciRecvFrameIn, hl] at hok
    simp only [hciRecvFrame, hl]
    exact ok_agrees hok

/-- A frame that is handled inside it is handled as the receiver does. -/
theorem completeIn_agrees (hok : h5CompleteRxPktIn h skb = .ok h') :
    h5CompleteRxPkt h skb = .ok h' := by
  obtain ⟨hdr, -, hok⟩ := bind_eq_ok.mp hok
  obtain ⟨type, htype, hok⟩ := bind_eq_ok.mp hok
  obtain rfl := byte_of_readIn htype
  simp only [h5CompleteRxPkt]
  dsimp only at hok
  split at hok
  · next hpass =>
    obtain ⟨s, hs, hok⟩ := bind_eq_ok.mp hok
    obtain ⟨h₁, hrecv, hok⟩ := bind_eq_ok.mp hok
    rw [if_pos hpass, pull_of_pullIn hs, ok_bind, hciRecvFrameIn_agrees hrecv, ok_bind]
    exact congrArg Except.ok (Except.ok.inj hok)
  · next hpass =>
    rw [if_neg hpass, ok_bind]
    exact congrArg Except.ok (Except.ok.inj hok)

end Agree

/-! ## The frames of a run -/

/-- The frame `h5_recv` completes with its next iteration: one without a CRC as it stands, and one
with a CRC that is right without its trailer. -/
inductive Completing (h : Hw) : SkBuff → Prop
  | data (skb : SkBuff) (hstate : h.rxState = .w4Data) (hcount : h.rxCount = 0)
      (hskb : h.rxSkb = .live skb) (hcrc : (hdrByte (skb.byte 0)).crc = false) : Completing h skb
  | crc (skb : SkBuff) (hstate : h.rxState = .w4Crc) (hcount : h.rxCount = 0)
      (hskb : h.rxSkb = .live skb) (hgood : bitRev16 h.messageCrc = h5GetCrc skb) :
      Completing h (skbTrim skb (skb.data.length - 2))

/-- It is the one the receiver passes to `h5_complete_rx_pkt`. -/
theorem recvStep_completing (freed : Hw → List UInt8 → UInt8) {h : Hw} {skb : SkBuff}
    (hc : Completing h skb) (byte : UInt8) (ptr : List UInt8) :
    recvStep freed (h, byte :: ptr) = (do
      let h ← h5CompleteRxPkt h skb
      .ok (h, byte :: ptr)) := by
  cases hc with
  | data skb hstate hcount hskb hcrc =>
    rw [recvStep, if_neg (not_not.mpr hcount)]
    simp only [hstate, hskb, hcrc, Bool.false_eq_true, if_false]
  | crc skb hstate hcount hskb hgood =>
    rw [recvStep, if_neg (not_not.mpr hcount)]
    simp only [hstate, hskb]
    rw [if_neg (not_not.mpr hgood)]

/-- A frame is as long as its header says. -/
theorem Completing.length {h : Hw} (hR : Receiving h) {skb : SkBuff} (hc : Completing h skb) :
    4 ≤ skb.data.length := by
  cases hc with
  | data skb hstate hcount hskb _ =>
    cases hR with
    | between hs _ => rcases hs with hs | hs <;> cases hstate.symm.trans hs
    | hdr s hs _ hs' _ => cases hstate.symm.trans hs'
    | data s hs _ _ hlen _ _ =>
      cases hskb.symm.trans hs
      exact hlen
    | crc s hs _ hs' _ _ _ => cases hstate.symm.trans hs'
  | crc skb hstate hcount hskb _ =>
    cases hR with
    | between hs _ => rcases hs with hs | hs <;> cases hstate.symm.trans hs
    | hdr s hs _ hs' _ => cases hstate.symm.trans hs'
    | data s hs _ hs' _ _ _ => cases hstate.symm.trans hs'
    | crc s hs _ _ hlen hsum _ =>
      cases hskb.symm.trans hs
      exact (trim_trailer skb (by omega)).1

/-- **A frame that `h5_recv` completes, on whatever chunk and in whatever link state, is handled
inside it just where its payload has the bytes its state, event, opcode and status need.** -/
theorem handlers_inside_iff {freed : Hw → List UInt8 → UInt8} {h₀ h : Hw} {chunk l : List UInt8}
    (hR : Receiving h₀) (hreach : Reach recvMore (recvStep freed) (h₀, chunk) (h, l))
    {skb : SkBuff} (hc : Completing h skb) :
    (∃ h', h5CompleteRxPktIn h skb = .ok h') ↔
      frameNeeds h.linkEstabState skb.data ≤ skb.data.length - 4 :=
  h5CompleteRxPktIn_iff (hc.length (receiving_reach hR hreach))

/-- **Then the iteration does what the handlers make of the frame's own bytes**, whatever its block
holds behind them. -/
theorem recvStep_inside {freed : Hw → List UInt8 → UInt8} {h₀ h : Hw}
    {chunk ptr : List UInt8} {byte : UInt8} (hR : Receiving h₀)
    (hreach : Reach recvMore (recvStep freed) (h₀, chunk) (h, byte :: ptr)) {skb : SkBuff}
    (hc : Completing h skb)
    (hneeds : frameNeeds h.linkEstabState skb.data ≤ skb.data.length - 4) :
    ∃ h', h5CompleteRxPktIn h skb = .ok h' ∧
      recvStep freed (h, byte :: ptr) = .ok (h', byte :: ptr) := by
  obtain ⟨h', hin⟩ := (h5CompleteRxPktIn_iff (hc.length (receiving_reach hR hreach))).mpr hneeds
  refine ⟨h', hin, ?_⟩
  rw [recvStep_completing freed hc, completeIn_agrees hin, ok_bind]

/-! ## Two frames -/

/-- A receiver between frames in a link state. -/
def linked (state : LinkState) : Hw := { rtkInit with linkEstabState := state }

theorem receiving_linked (state : LinkState) : Receiving (linked state) := .between (.inl rfl) rfl

/-- What it holds after `n` iterations, where it has a packet: its state, the bytes it expects, the
packet and the bytes that are left. -/
def held (state : LinkState) (chunk : List UInt8) (n : Nat) :
    Option (RxState × Nat × LinkState × List UInt8 × List UInt8) :=
  (atHead recvMore (recvStep fun _ _ => 0) n (linked state, chunk)).bind fun s =>
    match s.1.rxSkb with
    | .live skb => some (s.1.rxState, s.1.rxCount, s.1.linkEstabState, skb.data, s.2)
    | _ => none

/-- A packet without a CRC that is held whole is about to be completed. -/
theorem completing_of_held {state : LinkState} {chunk frame l : List UInt8} {n : Nat}
    (h : held state chunk n = some (.w4Data, 0, state, frame, l)) (hlen : 4 ≤ frame.length)
    (hcrc : (hdrByte (byteAt frame 0)).crc = false) :
    ∃ hw skb, Reach recvMore (recvStep fun _ _ => 0) (linked state, chunk) (hw, l) ∧
      Completing hw skb ∧ skb.data = frame ∧ hw.linkEstabState = state := by
  obtain ⟨⟨hw, l'⟩, hrun, hheld⟩ := Option.bind_eq_some_iff.mp h
  dsimp only at hheld
  split at hheld
  · next skb hskb =>
    simp only [Option.some.injEq, Prod.mk.injEq] at hheld
    obtain ⟨hstate, hcount, hlink, hdata, rfl⟩ := hheld
    refine ⟨hw, skb, reach_iff_atHead.mpr ⟨n, hrun⟩, .data skb hstate hcount hskb ?_, hdata, hlink⟩
    rw [byte_eq (by rw [hdata]; omega), hdata]
    exact hcrc
  · cases hheld

/-- An acknowledgement of patch 5, in the state `H5_PATCH`. -/
def patchAck : List UInt8 := [0xc0, 0, 0x74, 0, 0x8b, 0x0e, 5, 4, 0x20, 0xfc, 0, 5, 0xc0]

theorem patchAck_completing : ∃ h skb,
    Reach recvMore (recvStep fun _ _ => 0) (linked .patch, patchAck) (h, [0xc0]) ∧
    Completing h skb ∧ frameNeeds h.linkEstabState skb.data ≤ skb.data.length - 4 := by
  have hheld : held .patch patchAck 14 =
      some (.w4Data, 0, .patch, [0, 0x74, 0, 0x8b, 0x0e, 5, 4, 0x20, 0xfc, 0, 5], [0xc0]) := by
    decide +kernel
  obtain ⟨h, skb, hreach, hc, hdata, hlink⟩ := completing_of_held hheld (by decide) (by decide)
  refine ⟨h, skb, hreach, hc, ?_⟩
  rw [hlink, hdata]
  decide

theorem handlers_inside_patch : ∃ h skb,
    Reach recvMore (recvStep fun _ _ => 0)
      (linked .patch, [0xc0, 0, 0x74, 0, 0x8b, 0x0e, 5, 4, 0x20, 0xfc, 0, 5, 0xc0]) (h, [0xc0]) ∧
    Completing h skb ∧ ∃ h', h5CompleteRxPktIn h skb = .ok h' := by
  obtain ⟨h, skb, hreach, hc, hneeds⟩ := patchAck_completing
  exact ⟨h, skb, hreach, hc, (handlers_inside_iff (receiving_linked .patch) hreach hc).mpr hneeds⟩

theorem recvStep_inside_patch : ∃ h h' skb,
    Reach recvMore (recvStep fun _ _ => 0) (linked .patch, patchAck) (h, [0xc0]) ∧
    h5CompleteRxPktIn h skb = .ok h' ∧
    recvStep (fun _ _ => 0) (h, [0xc0]) = .ok (h', [0xc0]) := by
  obtain ⟨h, skb, hreach, hc, hneeds⟩ := patchAck_completing
  obtain ⟨h', hin, hstep⟩ := recvStep_inside (receiving_linked .patch) hreach hc hneeds
  exact ⟨h, h', skb, hreach, hin, hstep⟩

/-- A command complete event of one byte, in the state `H5_INIT`. -/
theorem handlers_outside : ∃ h skb,
    Reach recvMore (recvStep fun _ _ => 0)
      (linked .init, [0xc0, 0, 0x14, 0, 0xeb, 0x0e, 0xc0]) (h, [0xc0]) ∧
    Completing h skb ∧ h.linkEstabState = .init ∧ ¬ ∃ h', h5CompleteRxPktIn h skb = .ok h' := by
  have hheld : held .init [0xc0, 0, 0x14, 0, 0xeb, 0x0e, 0xc0] 8 =
      some (.w4Data, 0, .init, [0, 0x14, 0, 0xeb, 0x0e], [0xc0]) := by
    decide +kernel
  obtain ⟨h, skb, hreach, hc, hdata, hlink⟩ := completing_of_held hheld (by decide) (by decide)
  refine ⟨h, skb, hreach, hc, hlink, ?_⟩
  rw [h5CompleteRxPktIn_iff (by rw [hdata]; decide), hlink, hdata]
  decide

end Lichee.Bluetooth

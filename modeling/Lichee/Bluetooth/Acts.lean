import Lichee.Bluetooth.Attach
import Mathlib.Logic.Relation

/- What the attach does to the line. Whatever loop the program is in, a step of it is made of a few
   acts (`Attach.Step.acts`): it writes an acknowledgement, a pattern, a command or the last command
   again, or makes an iteration of `h5_recv`, which may complete a frame and write a reply. The CRC
   is never switched on, so the header on the line is not escaped, and the sequence number of a
   packet can be read off its second byte (`numberOf_line`). -/
namespace Lichee.Bluetooth
open Base

/-! ## What stands on the line -/

/-- The sequence number of a packet on the line, if it is a reliable one. -/
def numberOf (w : List UInt8) : Option SeqNo :=
  let hdr := hdrByte (w.getD 1 0)
  if hdr.reliable then some hdr.seq else none

/-- A pattern as it is written, with the acknowledged number it carries. -/
def linkCtl (ack : SeqNo) (p : List UInt8) : List UInt8 :=
  line { rtkInit with rxseqTxack := ack } p H5_LINK_CTL_PKT false

/-- The pattern was written. -/
def isPattern (p : List UInt8) : Event → Bool
  | .wrote w => decide (∃ ack, w = linkCtl ack p)
  | _ => false

/-- What is written on a frame: not reliable, and no pattern. -/
structure Reply (w : List UInt8) : Prop where
  number : numberOf w = none
  command : commandOf w = none
  sync : isPattern h5sync (.wrote w) = false
  config : isPattern h5confPattern (.wrote w) = false

/-- The first header byte needs no escape. -/
theorem slipCode_hdr0 (h : Hw) (hcrc : h.useCrc = false) (len : Nat) (pktType : UInt8)
    (rel : Bool) : slipCode ((h5Header h len pktType rel).getD 0 0) = none := by
  have hall : ∀ (ack tx : SeqNo) (rel : Bool),
      slipCode (if rel then UInt8.ofNat ack.val <<< 3 ||| (0x80 + UInt8.ofNat tx.val)
        else UInt8.ofNat ack.val <<< 3) = none := by decide +kernel
  have h0 : (h5Header h len pktType rel).getD 0 0 =
      (if rel then UInt8.ofNat h.rxseqTxack.val <<< 3 ||| (0x80 + UInt8.ofNat h.msgqTxseq.val)
        else UInt8.ofNat h.rxseqTxack.val <<< 3) := by
    simp only [h5Header, hcrc, Bool.false_eq_true, if_false, List.getD_cons_zero]
  rw [h0]
  exact hall h.rxseqTxack h.msgqTxseq rel

/-- The line begins with the delimiter and the first header byte. -/
theorem line_getD_one (h : Hw) (hcrc : h.useCrc = false) (data : List UInt8) (pktType : UInt8)
    (rel : Bool) : (line h data pktType rel).getD 1 0 =
      (h5Header h data.length pktType rel).getD 0 0 := by
  have hcode := slipCode_hdr0 h hcrc data.length pktType rel
  rw [line, h5Packet, List.append_assoc, slip.encode_append]
  rw [h5Header] at hcode ⊢
  rw [List.getD_cons_zero] at hcode ⊢
  rw [slip.encode_cons, Stuffing.stuff, show slip.code = slipCode from rfl, hcode]
  rfl

theorem numberOf_line (h : Hw) (hcrc : h.useCrc = false) (data : List UInt8) (pktType : UInt8)
    (rel : Bool) : numberOf (line h data pktType rel) = if rel then some h.msgqTxseq else none := by
  rw [numberOf, line_getD_one h hcrc, h5Header_hdrByte]
  cases rel <;> rfl

/-- A pattern written is one with the number acknowledged at the time. -/
theorem line_pattern (h : Hw) (hcrc : h.useCrc = false) (p : List UInt8) :
    line h p H5_LINK_CTL_PKT false = linkCtl h.rxseqTxack p := by
  simp only [linkCtl, line, h5Packet, h5Header, hcrc, rtkInit, Bool.false_eq_true, if_false]

theorem isPattern_linkCtl (ack : SeqNo) (p : List UInt8) :
    isPattern p (.wrote (linkCtl ack p)) = true := decide_eq_true ⟨ack, rfl⟩

theorem numberOf_linkCtl (ack : SeqNo) (p : List UInt8) : numberOf (linkCtl ack p) = none :=
  numberOf_line _ rfl _ _ _

/-- A packet with a number is no pattern. -/
theorem isPattern_of_number {w : List UInt8} {n : SeqNo} (hw : numberOf w = some n)
    (p : List UInt8) : isPattern p (.wrote w) = false := by
  refine decide_eq_false ?_
  rintro ⟨ack, rfl⟩
  rw [numberOf_linkCtl] at hw
  cases hw

theorem isPattern_other (ack : SeqNo) :
    isPattern h5sync (.wrote (linkCtl ack h5confPattern)) = false ∧
      isPattern h5confPattern (.wrote (linkCtl ack h5sync)) = false := by
  revert ack
  decide +kernel

/-- A pure acknowledgement is a reply. -/
theorem reply_ack (h : Hw) (hcrc : h.useCrc = false) : Reply (line h [] H5_ACK_PKT false) := by
  have hall : ∀ ack : SeqNo,
      numberOf (line { rtkInit with rxseqTxack := ack } [] 0 false) = none ∧
      isPattern h5sync (.wrote (line { rtkInit with rxseqTxack := ack } [] 0 false)) = false ∧
      isPattern h5confPattern (.wrote (line { rtkInit with rxseqTxack := ack } [] 0 false)) =
        false := by decide +kernel
  have hline : line h [] H5_ACK_PKT false =
      line { rtkInit with rxseqTxack := h.rxseqTxack } [] 0 false := by
    simp only [line, h5Packet, h5Header, hcrc, rtkInit, Bool.false_eq_true, if_false]
  obtain ⟨hn, hs, hc⟩ := hall h.rxseqTxack
  refine ⟨?_, commandOf_ack h, ?_, ?_⟩
  · rw [hline]
    exact hn
  · rw [hline]
    exact hs
  · rw [hline]
    exact hc

theorem reply_sync : Reply h5SyncRespPkt :=
  ⟨by decide, commandOf_syncResp, by decide +kernel, by decide +kernel⟩

theorem reply_config : Reply h5ConfRespPktToCtrl :=
  ⟨by decide, commandOf_confResp, by decide +kernel, by decide +kernel⟩

/-! ## What is written -/

theorem writePacket_ok {h h' : Hw} {data : List UInt8} {pktType : UInt8} {keep : Bool}
    (hok : writePacket h data pktType keep = .ok h') :
    ∃ (rel : Bool) (nskb : SkBuff), reliableType pktType = some rel ∧
      h' = (h.prepared rel).sent nskb keep ∧ nskb.data = line h data pktType rel := by
  rw [writePacket, bind_eq_ok] at hok
  obtain ⟨a, ha, hok⟩ := hok
  cases a with
  | none => cases hok
  | some p =>
    obtain ⟨nskb, h₁⟩ := p
    obtain ⟨rel, hrel, rfl, hline⟩ := h5PreparePkt_prepared ha
    cases hok
    exact ⟨rel, nskb, hrel, rfl, hline⟩

theorem rtkSendPureAckDown_wrote {h h' : Hw} (hok : rtkSendPureAckDown h = .ok h') :
    h' = (h.prepared false).note (.wrote (line h [] H5_ACK_PKT false)) := by
  have hw : writePacket h [] H5_ACK_PKT false = .ok h' := hok
  obtain ⟨rel, nskb, hrel, rfl, hline⟩ := writePacket_ok hw
  cases hrel
  rw [← hline]
  rfl

/-! ## What an iteration of `h5_recv` does -/

/-- An iteration that completes no frame leaves all but the receiver as it is. -/
structure Kept (h h' : Hw) : Prop where
  crc : h'.useCrc = h.useCrc
  number : h'.msgqTxseq = h.msgqTxseq
  link : h'.linkEstabState = h.linkEstabState
  last : h'.hostLastCmd = h.hostLastCmd
  rom : h'.romVersionCmdState = h.romVersionCmdState
  hci : h'.hciVersionCmdState = h.hciVersionCmdState
  tx : h'.txIndex = h.txIndex
  rx : h'.rxIndex = h.rxIndex
  total : h'.totalNum = h.totalNum
  log : ∃ ns : List SeqNo, h'.log = h.log ++ ns.map .resync

theorem Kept.refl (h : Hw) : Kept h h :=
  ⟨rfl, rfl, rfl, rfl, rfl, rfl, rfl, rfl, rfl, [], (List.append_nil _).symm⟩

theorem kept_header (freed : UInt8) (h : Hw) (skb : SkBuff) : Kept h (recvHdr freed h skb) := by
  rcases recvHdr_cases freed h skb with hr | hr | ⟨-, -, hr⟩ | ⟨-, hr⟩
  · rw [hr]
    exact { Kept.refl h with }
  · rw [hr]
    exact { Kept.refl h with }
  · rw [hr]
    exact { Kept.refl h with log := ⟨[(hdrByte freed).seq], rfl⟩ }
  · rw [hr]
    exact { Kept.refl h with }

theorem kept_unslip {h h' : Hw} {byte : UInt8} (hok : h5UnslipOneByte h byte = .ok h') :
    Kept h h' := by
  have hstore : ∀ c, h5StoreByte h c = .ok h' → Kept h h' := by
    intro c hc
    unfold h5StoreByte at hc
    split at hc
    · next skb hskb =>
      obtain ⟨skb', -, hc⟩ := bind_eq_ok.mp hc
      cases hc
      exact { Kept.refl h with }
    · cases hc
  unfold h5UnslipOneByte at hok
  split at hok
  · split at hok
    · cases hok
      exact { Kept.refl h with }
    · exact hstore _ hok
  · split at hok
    · exact hstore _ hok
    · cases hok
      exact { Kept.refl h with }

/-- **An iteration** leaves all but the receiver as it is, or completes a frame. -/
theorem recvStep_frame {freed : Hw → List UInt8 → UInt8} {h h' : Hw} {byte : UInt8}
    {ptr l : List UInt8} (hok : recvStep freed (h, byte :: ptr) = .ok (h', l)) :
    Kept h h' ∨ ∃ skb, Completing h skb ∧ h5CompleteRxPkt h skb = .ok h' := by
  rw [recvStep] at hok
  split at hok
  -- inside a frame a byte is stored, or the frame dropped
  · left
    split at hok
    · cases hok
      exact { Kept.refl h with }
    · obtain ⟨t, ht, hok⟩ := bind_eq_ok.mp hok
      cases hok
      exact kept_unslip ht
  · next hcount =>
    have h0 : h.rxCount = 0 := not_not.mp hcount
    split at hok
    · next skb hstate hskb =>
      cases hok
      exact .inl (kept_header _ h skb)
    · next skb hstate hskb =>
      split at hok
      · cases hok
        exact .inl { Kept.refl h with }
      · next hcrc =>
        obtain ⟨t, ht, hok⟩ := bind_eq_ok.mp hok
        cases hok
        exact .inr ⟨skb, .data skb hstate h0 hskb (Bool.eq_false_iff.mpr hcrc), ht⟩
    · next skb hstate hskb =>
      split at hok
      · cases hok
        exact .inl { Kept.refl h with }
      · next hgood =>
        -- a frame without a checksum is complete with its data
        obtain ⟨t, ht, hok⟩ := bind_eq_ok.mp hok
        cases hok
        exact .inr ⟨_, .crc skb hstate h0 hskb (not_not.mp hgood), ht⟩
    · cases hok
      left
      split <;> exact { Kept.refl h with }
    · split at hok
      · cases hok
        exact .inl (.refl h)
      · cases hok
        exact .inl { Kept.refl h with }
    · cases hok

/-! ## What a frame does -/

/-- What a payload does to the state of the link. -/
inductive LinkTo (skb : SkBuff) : LinkState → LinkState → Prop
  | stays (l : LinkState) : LinkTo skb l l
  | synced (hs : skb.starts h5syncresp = true) : LinkTo skb .sync .config
  | configured (hs : skb.starts h5confresp = true) : LinkTo skb .config .init
  | changed : LinkTo skb .init .patch
  | acknowledged : LinkTo skb .patch .active

/-- What a payload does. -/
structure Handled (h : Hw) (skb : SkBuff) (h' : Hw) : Prop where
  crc : h'.useCrc = h.useCrc
  number : h'.msgqTxseq = h.msgqTxseq
  link : LinkTo skb h.linkEstabState h'.linkEstabState
  last : h'.hostLastCmd = h.hostLastCmd ∨ h'.hostLastCmd = none
  rom : h'.romVersionCmdState = h.romVersionCmdState ∨ h'.romVersionCmdState = .eventReceived
  hci : h'.hciVersionCmdState = h.hciVersionCmdState ∨ h'.hciVersionCmdState = .eventReceived
  asleep : h.linkEstabState ≠ .init → h'.romVersionCmdState = h.romVersionCmdState
  tx : h'.txIndex = h.txIndex
  total : h'.totalNum = h.totalNum
  log : ∃ ws : List (List UInt8), h'.log = h.log ++ ws.map .wrote ∧ ∀ w ∈ ws, Reply w

theorem Handled.refl (h : Hw) (skb : SkBuff) : Handled h skb h :=
  ⟨rfl, rfl, .stays _, .inl rfl, .inl rfl, .inl rfl, fun _ => rfl, rfl, rfl, [],
    (List.append_nil _).symm, List.forall_mem_nil _⟩

/-- A reply is written. -/
theorem Handled.replies {h h' : Hw} {skb : SkBuff} (hh : Handled h skb h') {w : List UInt8}
    (hw : Reply w) : Handled h skb (h'.note (.wrote w)) := by
  obtain ⟨ws, hlog, hws⟩ := hh.log
  refine { hh with log := ⟨ws ++ [w], ?_, ?_⟩ }
  · simp only [Hw.note, hlog, List.map_append, List.map_cons, List.map_nil, List.append_assoc]
  · simp only [List.forall_mem_append, List.forall_mem_singleton]
    exact ⟨hws, hw⟩

/-- An acknowledgement is. -/
theorem Handled.acks {h h' h'' : Hw} {skb : SkBuff} (hh : Handled h skb h')
    (hcrc : h.useCrc = false) (hok : rtkSendPureAckDown h' = .ok h'') : Handled h skb h'' := by
  have hr : Handled h skb (h'.note (.wrote (line h' [] H5_ACK_PKT false))) :=
    hh.replies (reply_ack h' (hh.crc.trans hcrc))
  rw [rtkSendPureAckDown_wrote hok]
  exact { hr with }

theorem hciEventCmdComplete_handled {h h' : Hw} {skb : SkBuff} (hinit : h.linkEstabState = .init)
    (hok : hciEventCmdComplete h skb = .ok h') : Handled h skb h' := by
  unfold hciEventCmdComplete at hok
  obtain ⟨s₁, -, hok⟩ := bind_eq_ok.mp hok
  obtain ⟨s₂, -, hok⟩ := bind_eq_ok.mp hok
  dsimp only at hok
  have hn : h.linkEstabState ≠ .init → False := fun hne => hne hinit
  split at hok
  · cases hok
    exact { Handled.refl h skb with link := hinit ▸ .changed, last := .inr rfl }
  split at hok
  · cases hok
    exact { Handled.refl h skb with last := .inr rfl, hci := .inr rfl }
  split at hok
  · cases hok
    exact { Handled.refl h skb with
      last := .inr rfl, rom := .inr rfl, asleep := fun hne => (hn hne).elim }
  · cases hok
    exact .refl h skb

theorem hciRecvFrame_handled {h h' : Hw} {skb : SkBuff} (hcrc : h.useCrc = false)
    (hok : hciRecvFrame h skb = .ok h') : Handled h skb h' := by
  unfold hciRecvFrame at hok
  split at hok
  · next hl =>
    split at hok
    · cases hok
      exact (Handled.refl h skb).replies reply_sync
    split at hok
    · next hs =>
      cases hok
      exact { Handled.refl h skb with link := hl ▸ .synced hs }
    · cases hok
      exact .refl h skb
  · next hl =>
    split at hok
    · cases hok
      exact (Handled.refl h skb).replies reply_sync
    split at hok
    · cases hok
      exact (Handled.refl h skb).replies reply_config
    split at hok
    · next hs =>
      cases hok
      exact { Handled.refl h skb with link := hl ▸ .configured hs }
    · exact (Handled.refl h skb).acks hcrc hok
  · next hl =>
    -- in this state every frame is acknowledged three times, an event behind its handler
    have hacks : ∀ h₀, Handled h skb h₀ → (do
        let h ← rtkSendPureAckDown h₀
        let h ← rtkSendPureAckDown h
        rtkSendPureAckDown h) = .ok h' → Handled h skb h' := by
      intro h₀ hevent hok
      obtain ⟨h₁, h1, hok⟩ := bind_eq_ok.mp hok
      obtain ⟨h₂, h2, hok⟩ := bind_eq_ok.mp hok
      exact ((hevent.acks hcrc h1).acks hcrc h2).acks hcrc hok
    dsimp only at hok
    split at hok
    · obtain ⟨h₀, h0, hok⟩ := bind_eq_ok.mp hok
      exact hacks h₀ (hciEventCmdComplete_handled hl h0) hok
    · exact hacks h (.refl h skb) hok
  · next hl =>
    cases hok
    refine { Handled.refl h skb with link := ?_ }
    rw [hl]
    dsimp only
    split
    · exact .acknowledged
    · exact .stays _
  · cases hok
    exact .refl h skb

/-- What completing a frame does: the frame is in the log, and behind it the replies. -/
structure Framed (h : Hw) (skb : SkBuff) (h' : Hw) : Prop where
  crc : h'.useCrc = h.useCrc
  number : h'.msgqTxseq = h.msgqTxseq
  link : h'.linkEstabState = h.linkEstabState ∨
    ∃ s, pull skb 4 = .ok s ∧ LinkTo s h.linkEstabState h'.linkEstabState
  last : h'.hostLastCmd = h.hostLastCmd ∨ h'.hostLastCmd = none
  rom : h'.romVersionCmdState = h.romVersionCmdState ∨ h'.romVersionCmdState = .eventReceived
  hci : h'.hciVersionCmdState = h.hciVersionCmdState ∨ h'.hciVersionCmdState = .eventReceived
  asleep : h.linkEstabState ≠ .init → h'.romVersionCmdState = h.romVersionCmdState
  tx : h'.txIndex = h.txIndex
  total : h'.totalNum = h.totalNum
  log : ∃ ws : List (List UInt8), h'.log = h.log ++ .frame skb.data :: ws.map .wrote ∧
    ∀ w ∈ ws, Reply w

/-- The payload is handled in the state that has the frame's number. -/
theorem Handled.framed {h h₁ : Hw} {skb s : SkBuff} (hh : Handled (h.acked skb) s h₁)
    (hs : pull skb 4 = .ok s) :
    Framed h skb { h₁ with rxState := .w4PktDelimiter, rxSkb := .null } := by
  obtain ⟨ws, hlog, hws⟩ := hh.log
  refine { hh with link := .inr ⟨s, hs, hh.link⟩, log := ⟨ws, ?_, hws⟩ }
  dsimp only
  rw [hlog, Hw.acked, List.append_assoc, List.singleton_append]

theorem h5CompleteRxPkt_framed {h h' : Hw} {skb : SkBuff} (hcrc : h.useCrc = false)
    (hok : h5CompleteRxPkt h skb = .ok h') : Framed h skb h' := by
  unfold h5CompleteRxPkt at hok
  dsimp only at hok
  split at hok
  · obtain ⟨s, hs, hok⟩ := bind_eq_ok.mp hok
    obtain ⟨h₁, h1, hok⟩ := bind_eq_ok.mp hok
    cases hok
    have hh : Handled (h.acked skb) s h₁ := hciRecvFrame_handled hcrc h1
    exact hh.framed hs
  · cases hok
    exact ⟨rfl, rfl, .inl rfl, .inl rfl, .inl rfl, .inl rfl, fun _ => rfl, rfl, rfl, [], rfl,
      List.forall_mem_nil _⟩

/-! ## Acts -/

/-- The pattern a handler writes. -/
def Alarm.pattern : Alarm → Option (List UInt8)
  | .tsync => some h5sync
  | .tconf => some h5confPattern
  | .tinit | .tpatch | .eversion | .lmpVersion => none

/-- How far the link is. -/
def LinkState.rank : LinkState → Nat
  | .sync => 0
  | .config => 1
  | .init => 2
  | .patch => 3
  | .active => 4

/-- A payload takes the link no step back. -/
theorem LinkTo.rank {skb : SkBuff} {l l' : LinkState} (h : LinkTo skb l l') :
    l.rank ≤ l'.rank := by
  cases h with
  | stays => exact Nat.le_refl _
  | synced => exact Nat.le_succ _
  | configured => exact Nat.le_succ _
  | changed => exact Nat.le_succ _
  | acknowledged => exact Nat.le_succ _

theorem Framed.rank {h h' : Hw} {skb : SkBuff} (hf : Framed h skb h') :
    h.linkEstabState.rank ≤ h'.linkEstabState.rank := by
  rcases hf.link with heq | ⟨s, -, hto⟩
  · rw [heq]
  · exact hto.rank

/-- How far the link is at least in a loop. -/
def Pc.needs : Pc → Nat
  | .sync => 0
  | .config => 1
  | .lmpVersion | .eversion | .changeSpeed | .patch _ => 2
  | .returned _ | .timedOut _ | .ended => 0

/-- A loop behind the first two, or an end that is not a handler's. -/
def Pc.Onward : Pc → Prop
  | .sync | .config | .timedOut _ => False
  | _ => True

/-- The two patterns have been answered. -/
def Hw.Up (h : Hw) : Prop := 2 ≤ h.linkEstabState.rank

/-- What a step is made of, and the handler it is an act of. -/
inductive Act (freed : Hw → List UInt8 → UInt8) : Option Alarm → Hw → Hw → Prop
  | ack {h h' : Hw} (hok : rtkSendPureAckDown h = .ok h') : Act freed none h h'
  | command {h h' : Hw} (cmd : List UInt8) (hup : h.Up) (hlen : cmd.length ≤ 4095)
      (hok : writePacket h cmd HCI_COMMAND_PKT true = .ok h') : Act freed none h h'
  | patch {h h' : Hw} (index len : UInt8) (data : Option (List UInt8)) (hup : h.Up)
      (hok : hciDownloadPatch h index data len = .ok h') : Act freed none h h'
  | recv {h h' : Hw} {byte : UInt8} {ptr l : List UInt8}
      (hok : recvStep freed (h, byte :: ptr) = .ok (h', l)) : Act freed none h h'
  | commands {h : Hw} (rom hci : CmdState) :
      Act freed none h { h with romVersionCmdState := rom, hciVersionCmdState := hci }
  | patchLink {h : Hw} (d : Download) (hup : h.Up) : Act freed none h (h.patchLink.counting d)
  | pattern {a : Alarm} {p : List UInt8} {h h' : Hw} (hp : a.pattern = some p)
      (hok : writePacket h p H5_LINK_CTL_PKT false = .ok h') : Act freed (some a) h h'
  | again {a : Alarm} {h : Hw} (ha : a.pattern = none) : Act freed (some a) h h.writeAgain

/-- What a run of the program is made of, without its handlers. -/
def Acts (freed : Hw → List UInt8 → UInt8) : Hw → Hw → Prop :=
  Relation.ReflTransGen (Act freed none)

namespace Attach
variable {freed : Hw → List UInt8 → UInt8} {b : Board} {s s' : Attach}

/-- The program goes on without a handler. -/
structure Goes (freed : Hw → List UInt8 → UInt8) (s s' : Attach) : Prop where
  acts : Acts freed s.hw s'.hw
  retries : s'.retries = s.retries

/-- The program goes on to where it leads. -/
structure Leads (freed : Hw → List UInt8 → UInt8) (s s' : Attach) : Prop
    extends Goes freed s s' where
  onward : s'.pc.Onward

/-- A handler has counted, and done what it does. -/
structure Counts (freed : Hw → List UInt8 → UInt8) (a : Alarm) (s s' : Attach) : Prop where
  act : Act freed (some a) s.hw s'.hw
  room : s.retries a < H5_MAX_RETRY_COUNT
  retries : s'.retries = fun b => if b = a then s.retries a + 1 else s.retries b

theorem asks_ok {cmd : List UInt8} {pc : Pc} {a : Alarm} (hok : asks s cmd pc a = .ok s') :
    ∃ h, writePacket s.hw cmd HCI_COMMAND_PKT true = .ok h ∧
      s' = { s with hw := h, pc := pc, alarm := some a } := by
  obtain ⟨h, hw, hok⟩ := bind_eq_ok.mp hok
  cases hok
  exact ⟨h, hw, rfl⟩

section Segments
variable (freed)

theorem asks_leads {cmd : List UInt8} {pc : Pc} {a : Alarm} (hok : asks s cmd pc a = .ok s')
    (hup : s.hw.Up) (hlen : cmd.length ≤ 4095) (hpc : pc.Onward) : Leads freed s s' := by
  obtain ⟨h, hw, rfl⟩ := asks_ok hok
  exact ⟨⟨.single (.command cmd hup hlen hw), rfl⟩, hpc⟩

theorem download_leads {d : Download} (hok : download d s = .ok s') (hup : s.hw.Up) :
    Leads freed s s' := by
  unfold download at hok
  split at hok
  · obtain ⟨h, hsend, hok⟩ := bind_eq_ok.mp hok
    cases hok
    exact ⟨⟨.single (.patch _ _ _ hup hsend), rfl⟩, trivial⟩
  · obtain ⟨h, hack, hok⟩ := bind_eq_ok.mp hok
    cases hok
    exact ⟨⟨.single (.ack hack), rfl⟩, trivial⟩

theorem setFlowControl_leads (hok : setFlowControl b s = .ok s') (hup : s.hw.Up) :
    Leads freed s s' := by
  unfold setFlowControl at hok
  split at hok
  · cases hok
    exact ⟨⟨.refl, rfl⟩, trivial⟩
  split at hok
  · have hg := download_leads freed hok (Nat.le_succ 2)
    exact ⟨⟨.head (.patchLink _ hup) hg.acts, hg.retries⟩, hg.onward⟩
  · cases hok
    exact ⟨⟨.refl, rfl⟩, trivial⟩

theorem changeBaudrate_leads {total : Option (List UInt8)}
    (hok : changeBaudrate b s total = .ok s') (hup : s.hw.Up) : Leads freed s s' := by
  unfold changeBaudrate at hok
  split at hok
  · cases hok
    exact ⟨⟨.refl, rfl⟩, trivial⟩
  split at hok
  · have hg := setFlowControl_leads freed hok hup
    exact ⟨⟨hg.acts, hg.retries⟩, hg.onward⟩
  · have hg := asks_leads freed hok hup (Nat.le_of_ble_eq_true rfl) trivial
    exact ⟨⟨hg.acts, hg.retries⟩, hg.onward⟩

theorem finalPatch_leads {proto : Proto} (hok : finalPatch b proto s = .ok s') (hup : s.hw.Up) :
    Leads freed s s' := by
  unfold finalPatch at hok
  split at hok
  · exact changeBaudrate_leads freed hok hup
  · cases hok
    exact ⟨⟨.refl, rfl⟩, trivial⟩

theorem afterLmpVersion_leads (hok : afterLmpVersion b s = .ok s') (hup : s.hw.Up) :
    Leads freed s s' := by
  unfold afterLmpVersion at hok
  split at hok
  · exact finalPatch_leads freed hok hup
  · obtain ⟨t, ht, hok⟩ := bind_eq_ok.mp hok
    cases hok
    have hg := asks_leads freed ht hup (Nat.le_of_ble_eq_true rfl) trivial
    exact ⟨⟨hg.acts.tail (.commands _ _), hg.retries⟩, hg.onward⟩

theorem afterChangeSpeed_leads (hok : afterChangeSpeed b s = .ok s') (hup : s.hw.Up) :
    Leads freed s s' := by
  unfold afterChangeSpeed at hok
  split at hok
  · exact setFlowControl_leads freed hok hup
  · cases hok
    exact ⟨⟨.refl, rfl⟩, trivial⟩

theorem ack_up {h h' : Hw} (hup : h.Up) (hok : rtkSendPureAckDown h = .ok h') : h'.Up := by
  rw [rtkSendPureAckDown_wrote hok]
  exact hup

theorem afterConfig_leads (hok : afterConfig b s = .ok s') (hup : s.hw.Up) :
    Leads freed s s' := by
  unfold afterConfig at hok
  obtain ⟨h, hack, hok⟩ := bind_eq_ok.mp hok
  have hup' : h.Up := ack_up hup hack
  have hbegin : Acts freed s.hw
      { h with romVersionCmdState := .cmdNotSend, hciVersionCmdState := .cmdNotSend } :=
    .tail (.single (.ack hack)) (.commands _ _)
  dsimp only at hok
  split at hok
  · split at hok
    · obtain ⟨t, ht, hok⟩ := bind_eq_ok.mp hok
      cases hok
      have hg := asks_leads freed ht hup' (Nat.le_of_ble_eq_true rfl) trivial
      exact ⟨⟨(hbegin.trans hg.acts).tail (.commands _ _), hg.retries⟩, hg.onward⟩
    · cases hok
      exact ⟨⟨hbegin, rfl⟩, trivial⟩
  · cases hok
    exact ⟨⟨hbegin, rfl⟩, trivial⟩

/-- Behind every loop but the first. -/
theorem proceed_leads (hok : s.proceed b = .ok s') (hrun : s.running = true)
    (hsync : s.pc ≠ .sync) (hup : s.hw.Up) : Leads freed s s' := by
  unfold proceed at hok
  unfold running at hrun
  cases hpc : s.pc with
  | sync => exact absurd hpc hsync
  | config =>
    rw [hpc] at hok
    have hg := afterConfig_leads freed hok hup
    exact ⟨⟨hg.acts, hg.retries⟩, hg.onward⟩
  | lmpVersion =>
    rw [hpc] at hok
    have hg := afterLmpVersion_leads freed hok hup
    exact ⟨⟨hg.acts, hg.retries⟩, hg.onward⟩
  | eversion =>
    rw [hpc] at hok
    have hg := finalPatch_leads freed hok hup
    exact ⟨⟨hg.acts, hg.retries⟩, hg.onward⟩
  | changeSpeed =>
    rw [hpc] at hok
    have hg := afterChangeSpeed_leads freed hok hup
    exact ⟨⟨hg.acts, hg.retries⟩, hg.onward⟩
  | patch d =>
    rw [hpc] at hok
    have hg := download_leads freed hok hup
    exact ⟨⟨hg.acts, hg.retries⟩, hg.onward⟩
  | _ =>
    rw [hpc] at hrun
    cases hrun

/-- Where `read` failed. -/
theorem readFails_leads (hok : s.readFails b = .ok s') (hrun : s.running = true)
    (hup : 2 ≤ s.pc.needs → s.hw.Up) : Leads freed s s' := by
  unfold readFails at hok
  unfold running at hrun
  cases hpc : s.pc with
  | sync =>
    rw [hpc] at hok
    cases hok
    exact ⟨⟨.refl, rfl⟩, trivial⟩
  | config =>
    rw [hpc] at hok
    cases hok
    exact ⟨⟨.refl, rfl⟩, trivial⟩
  | lmpVersion =>
    rw [hpc] at hok hup
    exact afterLmpVersion_leads freed hok (hup (Nat.le_refl 2))
  | eversion =>
    rw [hpc] at hok hup
    exact finalPatch_leads freed hok (hup (Nat.le_refl 2))
  | changeSpeed =>
    rw [hpc] at hok hup
    exact afterChangeSpeed_leads freed hok (hup (Nat.le_refl 2))
  | patch d =>
    rw [hpc] at hok
    cases hok
    exact ⟨⟨.refl, rfl⟩, trivial⟩
  | _ =>
    rw [hpc] at hrun
    cases hrun

/-! ## The handlers -/

theorem patternAlarm_ok {a : Alarm} {p : List UInt8} (hp : a.pattern = some p)
    (hok : patternAlarm a p s = .ok s') : Goes freed s s' ∨ Counts freed a s s' := by
  unfold patternAlarm at hok
  split at hok
  · next hroom =>
    obtain ⟨h, hw, hok⟩ := bind_eq_ok.mp hok
    cases hok
    exact .inr ⟨.pattern hp hw, hroom, rfl⟩
  · cases hok
    exact .inl ⟨.refl, rfl⟩

theorem commandAlarm_ok {a : Alarm} (ha : a.pattern = none) :
    Goes freed s (commandAlarm a s) ∨ Counts freed a s (commandAlarm a s) := by
  unfold commandAlarm
  split
  · next hroom => exact .inr ⟨.again ha, hroom, rfl⟩
  · exact .inl ⟨.refl, rfl⟩

theorem h5TinitSigAlarm_ok :
    Goes freed s (h5TinitSigAlarm s) ∨ Counts freed .tinit s (h5TinitSigAlarm s) := by
  unfold h5TinitSigAlarm
  split
  · next hroom =>
    split
    · exact .inr ⟨.again rfl, hroom, rfl⟩
    · next hlast =>
      have hagain : s.hw.writeAgain = s.hw := by
        rw [Option.not_isSome_iff_eq_none] at hlast
        rw [Hw.writeAgain, hlast]
      refine .inr ⟨?_, hroom, rfl⟩
      have hact : Act freed (some .tinit) s.hw s.hw.writeAgain := .again rfl
      rw [hagain] at hact
      exact hact
  · exact .inl ⟨.refl, rfl⟩

theorem run_ok {a : Alarm} (hok : a.run s = .ok s') : Goes freed s s' ∨ Counts freed a s s' := by
  cases a with
  | tsync => exact patternAlarm_ok freed rfl hok
  | tconf => exact patternAlarm_ok freed rfl hok
  | tinit =>
    cases hok
    exact h5TinitSigAlarm_ok freed
  | tpatch =>
    cases hok
    exact commandAlarm_ok freed rfl
  | eversion =>
    cases hok
    exact commandAlarm_ok freed rfl
  | lmpVersion =>
    cases hok
    exact commandAlarm_ok freed rfl

/-! ## Steps -/

/-- The receiver keeps its invariant, no packet has a CRC, and the link is as far as the loop
needs it. -/
structure Sound (s : Attach) : Prop where
  crc : s.hw.useCrc = false
  receiving : Receiving s.hw
  reached : s.pc.needs ≤ s.hw.linkEstabState.rank

/-- A program that waits is in a loop. -/
theorem running_of_waits (hwait : s.waits = true) : s.running = true := by
  unfold waits at hwait
  unfold running
  cases hpc : s.pc with
  | returned ok =>
    rw [hpc] at hwait
    cases hwait
  | timedOut a =>
    rw [hpc] at hwait
    cases hwait
  | ended =>
    rw [hpc] at hwait
    cases hwait
  | _ => rfl

/-- Behind every loop but the first the two patterns have been answered. -/
theorem Sound.up (hs : Sound s) (hrun : s.running = true) (hdone : s.waits = false)
    (hsync : s.pc ≠ .sync) : s.hw.Up := by
  have hreached := hs.reached
  unfold running at hrun
  unfold waits at hdone
  unfold Hw.Up
  cases hpc : s.pc with
  | sync => exact absurd hpc hsync
  | config =>
    rw [hpc] at hreached hdone
    cases hl : s.hw.linkEstabState <;> simp [hl, Pc.needs, LinkState.rank] at hreached hdone ⊢
  | returned ok =>
    rw [hpc] at hrun
    cases hrun
  | timedOut a =>
    rw [hpc] at hrun
    cases hrun
  | ended =>
    rw [hpc] at hrun
    cases hrun
  | _ =>
    rw [hpc] at hreached
    exact hreached

theorem patternAlarm_pc {a : Alarm} {p : List UInt8} (hok : patternAlarm a p s = .ok s') :
    s'.pc = s.pc ∨ s'.pc = .timedOut a := by
  unfold patternAlarm at hok
  split at hok
  · obtain ⟨h, -, hok⟩ := bind_eq_ok.mp hok
    cases hok
    exact .inl rfl
  · cases hok
    exact .inr rfl

theorem commandAlarm_pc (a : Alarm) :
    (commandAlarm a s).pc = s.pc ∨ (commandAlarm a s).pc = .timedOut a := by
  unfold commandAlarm
  split
  · exact .inl rfl
  · exact .inr rfl

/-- A handler leaves the program in its loop, or gives up. -/
theorem run_pc {a : Alarm} (hok : a.run s = .ok s') : s'.pc = s.pc ∨ s'.pc = .timedOut a := by
  cases a with
  | tsync => exact patternAlarm_pc hok
  | tconf => exact patternAlarm_pc hok
  | tinit =>
    cases hok
    unfold h5TinitSigAlarm
    split
    · split
      · exact .inl rfl
      · exact .inr rfl
    · exact .inr rfl
  | tpatch =>
    cases hok
    exact commandAlarm_pc .tpatch
  | eversion =>
    cases hok
    exact commandAlarm_pc .eversion
  | lmpVersion =>
    cases hok
    exact commandAlarm_pc .lmpVersion

/-- **A step of the program** makes acts without a handler, or one of a handler that counts it. -/
theorem Step.acts (hs : Sound s) (hstep : Step freed b s s') :
    Goes freed s s' ∨ ∃ a, Counts freed a s s' := by
  cases hstep with
  | alarm hrun harmed hok => exact (run_ok freed hok).imp id fun hc => ⟨_, hc⟩
  | read chunk hptr hwait hlen => exact .inl ⟨.refl, rfl⟩
  | readFails hptr hwait hok =>
    exact .inl (readFails_leads freed hok (running_of_waits hwait)
      fun h2 => h2.trans hs.reached).toGoes
  | recv hrun hptr hok =>
    obtain ⟨byte, ptr, hl⟩ := List.exists_cons_of_ne_nil hptr
    rw [hl] at hok
    exact .inl ⟨.single (.recv hok), rfl⟩
  | exits hrun hptr herr => exact .inl ⟨.refl, rfl⟩
  | proceed hrun hptr hdone hok =>
    by_cases hsync : s.pc = .sync
    · unfold Attach.proceed at hok
      rw [hsync] at hok
      rcases patternAlarm_ok freed rfl hok with hg | hc
      · exact .inl ⟨hg.acts, hg.retries⟩
      · exact .inr ⟨.tconf, hc.act, hc.room, hc.retries⟩
    · exact .inl (proceed_leads freed hok hrun hsync (hs.up hrun hdone hsync)).toGoes

end Segments

end Attach

end Lichee.Bluetooth

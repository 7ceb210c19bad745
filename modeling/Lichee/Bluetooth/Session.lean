import Lichee.Bluetooth.Download
import Lichee.Bluetooth.Framing
import Mathlib.Logic.Relation

/- Runs of the program on the three-wire path. Between the chunks `h5_recv` is fed, it sends
   packets, writes the last command again when a timer ends, sets the states of the link and
   of its version commands, and downloads the patch once. `Step` lets these happen in any
   order, and the invariants hold in every state a run of them reaches: the receive buffer
   has room for what is expected (`recv_never_overflows`), and as long as no reliable packet
   out of order comes in before the download has begun, the reliable packets are completed in
   the order of their numbers (`recv_in_order`). -/
namespace Lichee.Bluetooth
open Base

/-- The program: its `rtk_hw_cfg`, and the locals of the download once it has begun. -/
structure Session where
  hw : Hw
  download : Option Download

def Session.init : Session := ⟨rtkInit, none⟩

/-- A packet is written and, if it is a command, kept for a retry. -/
def Hw.sent (h : Hw) (nskb : SkBuff) (keep : Bool) : Hw :=
  { h with hostLastCmd := if keep then some nskb else h.hostLastCmd }.note (.wrote nskb.data)

/-- One step of the program, with the bytes it feeds to `h5_recv`. -/
inductive Step (freed : Hw → List UInt8 → UInt8) (s : Session) : List UInt8 → Session → Prop
  | recv (chunk : List UInt8) {h : Hw} (hrecv : Received freed s.hw chunk (.ok (h, []))) :
      Step freed s chunk { s with hw := h }
  | send (data : List UInt8) (pktType : UInt8) (keep : Bool) {nskb : SkBuff} {h : Hw}
      (hprep : h5PreparePkt s.hw data pktType = .ok (some (nskb, h))) :
      Step freed s [] { s with hw := h.sent nskb keep }
  | resend {nskb : SkBuff} (hlast : s.hw.hostLastCmd = some nskb) :
      Step freed s [] { s with hw := s.hw.note (.wrote nskb.data) }
  | link (l : LinkState) : Step freed s [] { s with hw := { s.hw with linkEstabState := l } }
  | commands (rom hci : CmdState) :
      Step freed s [] { s with
        hw := { s.hw with romVersionCmdState := rom, hciVersionCmdState := hci } }
  | download (buf : List UInt8) (isSentChangerate : Bool) (hfirst : s.download = none)
      (hpos : 0 < buf.length) (hmax : buf.length ≤ RTK_PATCH_LENGTH_MAX) :
      Step freed s [] ⟨s.hw.patchLink.counting (.start s.hw buf isSentChangerate),
        some (.start s.hw buf isSentChangerate)⟩
  | packet {d : Download} {h : Hw} (hd : s.download = some d) (hmore : d.more)
      (hsend : d.send s.hw = .ok h) : Step freed s [] ⟨h, some d.next⟩

/-- The states a run reaches. -/
def Reachable (freed : Hw → List UInt8 → UInt8) : Session → Prop :=
  Relation.ReflTransGen (fun s s' => ∃ chunk, Step freed s chunk s') .init

/-! ## What a packet sent leaves alone -/

/-- A packet that was prepared changed only the next number and the request for an
acknowledgement. -/
theorem h5PreparePkt_prepared {h h' : Hw} {data : List UInt8} {pktType : UInt8} {nskb : SkBuff}
    (hprep : h5PreparePkt h data pktType = .ok (some (nskb, h'))) :
    ∃ rel, reliableType pktType = some rel ∧ h' = h.prepared rel ∧
      nskb.data = line h data pktType rel := by
  cases ht : reliableType pktType with
  | none =>
    rw [h5PreparePkt_refuses h data ht] at hprep
    cases hprep
  | some rel =>
    obtain ⟨s, hs, hline⟩ := h5PreparePkt_sends h data ht
    cases hs.symm.trans hprep
    exact ⟨rel, rfl, rfl, hline⟩

/-- What `hci_download_patch` does up to its wait. -/
theorem hciDownloadPatch_ok {h h' : Hw} {index len : UInt8} {data : Option (List UInt8)}
    (hok : hciDownloadPatch h index data len = .ok h') :
    ∃ nskb, h' = ((h.indexed index).prepared true).patched index (patchData data len) nskb ∧
      nskb.data = line (h.indexed index) (hcipatch index (patchData data len) len)
        HCI_COMMAND_PKT true := by
  rw [hciDownloadPatch, bind_eq_ok] at hok
  obtain ⟨a, ha, hok⟩ := hok
  cases a with
  | none => cases hok
  | some p =>
    obtain ⟨nskb, h₁⟩ := p
    obtain ⟨rel, hrel, rfl, hline⟩ := h5PreparePkt_prepared ha
    cases hrel
    cases hok
    exact ⟨nskb, rfl, hline⟩

/-! ## The receive buffer -/

theorem Receiving.congr {h h' : Hw} (hR : Receiving h) (hseq : h'.rxseqTxack = h.rxseqTxack)
    (hcount : h'.rxCount = h.rxCount) (hstate : h'.rxState = h.rxState)
    (hskb : h'.rxSkb = h.rxSkb) : Receiving h' := by
  cases hR with
  | between hs h0 => exact .between (hstate ▸ hs) (hcount.trans h0)
  | hdr s hs hm hst hsum => exact .hdr s (hskb.trans hs) hm (hstate.trans hst) (hcount ▸ hsum)
  | data s hs hm hst h4 hsum hexp =>
    refine .data s (hskb.trans hs) hm (hstate.trans hst) h4 (hcount ▸ hsum) ?_
    rw [Expected, hseq]
    exact hexp
  | crc s hs hm hst h4 hsum hexp =>
    refine .crc s (hskb.trans hs) hm (hstate.trans hst) h4 (hcount ▸ hsum) ?_
    rw [Expected, hseq]
    exact hexp

theorem received_reach {freed : Hw → List UInt8 → UInt8} {h h' : Hw} {chunk : List UInt8}
    (hrecv : Received freed h chunk (.ok (h', []))) :
    Reach recvMore (recvStep freed) (h, chunk) (h', []) := by
  obtain ⟨n, hn⟩ := hrecv
  exact (reach_of_whileLoop hn).1

/-- A packet of a patch leaves the receiver alone. -/
theorem Receiving.patched {h : Hw} (hR : Receiving h) (index : UInt8) (rel : Bool)
    (block : List UInt8) (nskb : SkBuff) :
    Receiving (((h.indexed index).prepared rel).patched index block nskb) :=
  hR.congr rfl rfl rfl rfl

theorem Step.receiving {freed : Hw → List UInt8 → UInt8} {s s' : Session} {chunk : List UInt8}
    (hR : Receiving s.hw) (hstep : Step freed s chunk s') : Receiving s'.hw := by
  cases hstep with
  | recv chunk hrecv => exact receiving_reach hR (received_reach hrecv)
  | send data pktType keep hprep =>
    obtain ⟨rel, -, rfl, -⟩ := h5PreparePkt_prepared hprep
    exact hR.congr rfl rfl rfl rfl
  | resend hlast => exact hR.congr rfl rfl rfl rfl
  | link l => exact hR.congr rfl rfl rfl rfl
  | commands rom hci => exact hR.congr rfl rfl rfl rfl
  | download buf sent hfirst hpos hmax => exact hR.congr rfl rfl rfl rfl
  | packet hd hmore hsend =>
    obtain ⟨nskb, rfl, -⟩ := hciDownloadPatch_ok hsend
    exact hR.patched _ _ _ _

theorem Reachable.receiving {freed : Hw → List UInt8 → UInt8} {s : Session}
    (hs : Reachable freed s) : Receiving s.hw := by
  induction hs with
  | refl => exact receiving_init
  | tail _ hstep ih =>
    obtain ⟨chunk, hstep⟩ := hstep
    exact hstep.receiving ih

/-- What the invariant says of the buffer. -/
theorem Receiving.bounded {h : Hw} (hR : Receiving h) :
    (h.rxCount ≠ 0 → ∃ skb, h.rxSkb = .live skb ∧ skb.maxLen = 0x1005 ∧
      skb.data.length + h.rxCount ≤ 0x1005) ∧
    (h.rxCount = 0 → h.rxState = .w4Hdr ∨ h.rxState = .w4Data →
      ∃ skb, h.rxSkb = .live skb ∧ 4 ≤ skb.data.length) ∧
    (h.rxCount = 0 → h.rxState = .w4Crc → ∃ skb, h.rxSkb = .live skb ∧ 6 ≤ skb.data.length) := by
  cases hR with
  | between hs h0 =>
    refine ⟨fun hc => absurd h0 hc, fun _ hst => ?_, fun _ hst => ?_⟩
    · rcases hs with hs | hs <;> rcases hst with hst | hst <;> cases hs.symm.trans hst
    · rcases hs with hs | hs <;> cases hs.symm.trans hst
  | hdr skb hskb hm hs hsum =>
    refine ⟨fun _ => ⟨skb, hskb, hm, by omega⟩, fun h0 _ => ⟨skb, hskb, by omega⟩, fun _ hst => ?_⟩
    cases hs.symm.trans hst
  | data skb hskb hm hs h4 hsum hexp =>
    have hp : skb.payloadLen ≤ 4095 := hdrLen_le _ _
    refine ⟨fun _ => ⟨skb, hskb, hm, by omega⟩, fun _ _ => ⟨skb, hskb, h4⟩, fun _ hst => ?_⟩
    cases hs.symm.trans hst
  | crc skb hskb hm hs h4 hsum hexp =>
    have hp : skb.payloadLen ≤ 4095 := hdrLen_le _ _
    refine ⟨fun _ => ⟨skb, hskb, hm, by omega⟩, fun _ hst => ?_, fun h0 _ => ⟨skb, hskb, by omega⟩⟩
    rcases hst with hst | hst <;> cases hs.symm.trans hst

/-- No iteration ends the program but in the handler of a completed packet: no append fails,
and no buffer is used that is not there. -/
theorem recvStep_error {freed : Hw → List UInt8 → UInt8} {h : Hw} {l : List UInt8} {e : Crash}
    (hR : Receiving h) (herr : recvStep freed (h, l) = .error e) : e = .exit := by
  cases l with
  | nil => cases herr
  | cons byte ptr =>
    rcases recvStep_cases freed hR byte ptr with ⟨r, hok, -⟩ | hexit
    · cases hok.symm.trans herr
    · cases hexit.symm.trans herr
      rfl

/-- **The receive buffer never overflows.** At every iteration of `h5_recv`, on any chunk after
any run: where bytes are expected there is a buffer of the size of the longest packet that has
room for them; a header is looked at with four bytes stored, a CRC with six; no append
fails. -/
theorem recv_never_overflows (freed : Hw → List UInt8 → UInt8) {s : Session}
    (hs : Reachable freed s) (chunk : List UInt8) {h : Hw} {l : List UInt8}
    (hr : Reach recvMore (recvStep freed) (s.hw, chunk) (h, l)) :
    (h.rxCount ≠ 0 → ∃ skb, h.rxSkb = .live skb ∧ skb.maxLen = 0x1005 ∧
      skb.data.length + h.rxCount ≤ 0x1005) ∧
    (h.rxCount = 0 → h.rxState = .w4Hdr ∨ h.rxState = .w4Data →
      ∃ skb, h.rxSkb = .live skb ∧ 4 ≤ skb.data.length) ∧
    (h.rxCount = 0 → h.rxState = .w4Crc → ∃ skb, h.rxSkb = .live skb ∧ 6 ≤ skb.data.length) ∧
    ∀ e, recvStep freed (h, l) = .error e → e = .exit := by
  have hR := receiving_reach hs.receiving hr
  obtain ⟨hroom, hhdr, hcrc⟩ := hR.bounded
  exact ⟨hroom, hhdr, hcrc, fun e => recvStep_error hR⟩

/-- The first two iterations on a packet. -/
theorem recv_never_overflows_first : ∃ skb, rtkInit.opened.rxSkb = .live skb ∧
    skb.maxLen = 0x1005 ∧ skb.data.length + rtkInit.opened.rxCount ≤ 0x1005 :=
  (recv_never_overflows (fun _ _ => 0) .refl [0xc0, 0x80]
    (.tail (.tail .refl rfl rfl) rfl rfl)).1 (by decide)

/-! ## The order of the reliable packets -/

/-- What an event makes of the number expected next, and of whether the last packet of the
download has been sent; `none` for a reliable packet that is not the one expected, and for a
number taken over before that. -/
def Event.deliver : Bool × SeqNo → Event → Option (Bool × SeqNo)
  | (last, n), .wrote _ => some (last, n)
  | (last, n), .patch index _ => some (last || (index &&& 0x80) != 0, n)
  | (last, n), .frame bytes =>
    let hdr := hdrByte (bytes.getD 0 0)
    if hdr.reliable then if hdr.seq = n then some (last, n + 1) else none else some (last, n)
  | (last, _), .resync m => if last then some (last, m) else none

/-- The number expected after a run. -/
def deliver (log : List Event) : Option (Bool × SeqNo) := log.foldlM Event.deliver (false, 0)

/-- The reliable packets were completed in order, and the acknowledged number is the one that
follows from it. -/
def InOrder (h : Hw) : Prop := ∃ last, deliver h.log = some (last, h.rxseqTxack)

/-- `h5_recv` looks at a reliable header out of order. -/
def Stray (h : Hw) : Prop :=
  h.rxState = .w4Hdr ∧ h.rxCount = 0 ∧ ∃ skb, h.rxSkb = .live skb ∧ StrayHdr h skb

/-- Before the download has begun, a chunk holds no reliable header out of order. -/
def NoStray (freed : Hw → List UInt8 → UInt8) (s : Session) (chunk : List UInt8) : Prop :=
  s.download = none → ∀ h l, Reach recvMore (recvStep freed) (s.hw, chunk) (h, l) →
    recvMore (h, l) = true → ¬ Stray h

theorem deliver_snoc {log : List Event} {p : Bool × SeqNo} (h : deliver log = some p) (e : Event) :
    deliver (log ++ [e]) = e.deliver p := by
  rw [deliver] at h
  rw [deliver, List.foldlM_append, h]
  simp only [List.foldlM_cons, List.foldlM_nil, Option.bind_eq_bind, Option.bind_some, bind_pure]

/-- Writing to the line changes nothing. -/
theorem deliver_wrote {log : List Event} {p : Bool × SeqNo} (h : deliver log = some p)
    (ws : List (List UInt8)) : deliver (log ++ ws.map .wrote) = some p := by
  induction ws generalizing log with
  | nil => rwa [List.map_nil, List.append_nil]
  | cons w ws ih =>
    rw [List.map_cons, List.append_cons]
    exact ih (deliver_snoc h (.wrote w))

/-- So does a packet of a patch, but for the end mark it may carry. -/
theorem deliver_patched {h : Hw} {last : Bool} (hin : deliver h.log = some (last, h.rxseqTxack))
    (index : UInt8) (rel : Bool) (block : List UInt8) (nskb : SkBuff) :
    deliver (((h.indexed index).prepared rel).patched index block nskb).log =
      some (last || (index &&& 0x80) != 0, h.rxseqTxack) :=
  deliver_snoc (deliver_snoc hin (.patch index block)) (.wrote nskb.data)

/-- A completed packet was the one expected, and the number moves on. -/
theorem Completed.inOrder {h h' : Hw} {skb : SkBuff} {last : Bool} (hdone : Completed h skb h')
    (hlen : 4 ≤ skb.data.length) (hexp : Expected h skb)
    (hin : deliver h.log = some (last, h.rxseqTxack)) :
    deliver h'.log = some (last, h'.rxseqTxack) := by
  obtain ⟨ws, hlog, -⟩ := hdone.log
  have hbyte : skb.byte 0 = skb.data.getD 0 0 := byte_eq (by omega)
  rw [hlog, List.append_cons]
  apply deliver_wrote
  rw [deliver_snoc hin, hdone.seq, Event.deliver, ← hbyte]
  unfold Expected at hexp
  cases hrel : (hdrByte (skb.byte 0)).reliable with
  | false => simp only [Bool.false_eq_true, if_false]
  | true => simp only [hexp hrel, if_true]

/-- **One iteration keeps the order**, a number being taken over only where that is allowed. -/
theorem RecvCase.inOrder {h h' : Hw} {byte : UInt8} {ptr l : List UInt8} {last : Bool}
    (hcase : RecvCase h byte ptr (h', l)) (hin : deliver h.log = some (last, h.rxseqTxack))
    (hlast : Stray h → h.txIndex = h.totalNum → last = true) :
    deliver h'.log = some (last, h'.rxseqTxack) ∧ h'.txIndex = h.txIndex ∧
      h'.totalNum = h.totalNum := by
  cases hcase with
  | header skb freed hstate hcount hskb =>
    rcases recvHdr_cases freed h skb with hr | hr | ⟨hstray, htx, hr⟩ | ⟨-, hr⟩
    · rw [hr]
      exact ⟨hin, rfl, rfl⟩
    · rw [hr]
      exact ⟨hin, rfl, rfl⟩
    · rw [hr]
      refine ⟨?_, rfl, rfl⟩
      show deliver (h.log ++ [.resync (hdrByte freed).seq]) = _
      rw [deliver_snoc hin, hlast ⟨hstate, hcount, skb, hskb, hstray⟩ htx]
      rfl
    · rw [hr]
      exact ⟨hin, rfl, rfl⟩
  | completes skb _ hstate hcount hlen hexp hdone =>
    exact ⟨hdone.inOrder hlen hexp hin, hdone.tx, hdone.total⟩
  | _ => exact ⟨hin, rfl, rfl⟩

/-- A chunk keeps the order, and the counters of the download. -/
theorem recv_chunk_inOrder {freed : Hw → List UInt8 → UInt8} {h h' : Hw} {chunk l : List UInt8}
    {last : Bool} (hR : Receiving h) (hin : deliver h.log = some (last, h.rxseqTxack))
    (hlast : ∀ t m, Reach recvMore (recvStep freed) (h, chunk) (t, m) → recvMore (t, m) = true →
      Stray t → h.txIndex = h.totalNum → last = true)
    (hr : Reach recvMore (recvStep freed) (h, chunk) (h', l)) :
    deliver h'.log = some (last, h'.rxseqTxack) ∧ h'.txIndex = h.txIndex ∧
      h'.totalNum = h.totalNum := by
  refine hr.invariant_reach (I := fun s => deliver s.1.log = some (last, s.1.rxseqTxack) ∧
    s.1.txIndex = h.txIndex ∧ s.1.totalNum = h.totalNum) ⟨hin, rfl, rfl⟩ ?_
  rintro ⟨t, m⟩ ⟨u, m'⟩ hreach ⟨ht, htx, htot⟩ hmore hstep
  obtain ⟨byte, ptr, -, hcase⟩ := recvStep_ok (receiving_reach hR hreach) hmore hstep
  obtain ⟨hu, hutx, hutot⟩ := hcase.inOrder ht fun hstray heq =>
    hlast t m hreach hmore hstray (htx ▸ htot ▸ heq)
  exact ⟨hu, hutx.trans htx, hutot.trans htot⟩

/-! ### The counters of the download -/

/-- Before the download `tx_index` is zero; in it, it meets `total_num` only once the packet
with the end mark has been sent. -/
def Counted (s : Session) (last : Bool) : Prop :=
  match s.download with
  | none => s.hw.txIndex = 0
  | some d => s.hw.totalNum = d.iTotalIndex ∧ d.iEndIndex ≤ d.iTotalIndex ∧
      d.iTotalIndex < 0x80 ∧ (s.hw.txIndex = s.hw.totalNum → last = true)

/-- The earlier commands are three at most. -/
theorem iCmdSentNum_le (h : Hw) (sent : Bool) : iCmdSentNum h sent ≤ 3 := by
  have hb (b : Bool) : b.toNat ≤ 1 := Bool.toNat_le b
  have h₁ := hb sent
  have h₂ := hb h.romVersionCmdState.sent
  have h₃ := hb h.hciVersionCmdState.sent
  unfold iCmdSentNum
  omega

/-- The number of packets, without the eight bits it is held in. -/
theorem start_counts (h : Hw) (buf : List UInt8) (sent : Bool) (hpos : 0 < buf.length)
    (hmax : buf.length ≤ RTK_PATCH_LENGTH_MAX) :
    (Download.start h buf sent).iEndIndex.toNat = (buf.length - 1) / 252 ∧
    (Download.start h buf sent).iTotalIndex.toNat = (buf.length - 1) / 252 +
      (8 - ((buf.length - 1) / 252 + 1 + iCmdSentNum h sent) % 8) % 8 ∧
    (Download.start h buf sent).iTotalIndex.toNat ≤ 104 := by
  have hmax' : buf.length ≤ 24576 := hmax
  have hend : (Download.start h buf sent).iEndIndex.toNat = (buf.length - 1) / 252 := by
    show (UInt8.ofNat ((buf.length - 1) / 252)).toNat = _
    rw [UInt8.toNat_ofNat']
    omega
  have hadd : (iAdditionPkt (Download.start h buf sent).iEndIndex (iCmdSentNum h sent)).toNat =
      (8 - ((buf.length - 1) / 252 + 1 + iCmdSentNum h sent) % 8) % 8 := by
    rw [iAdditionPkt, hend, UInt8.toNat_ofNat']
    split <;> omega
  have htot : (Download.start h buf sent).iTotalIndex.toNat = (buf.length - 1) / 252 +
      (8 - ((buf.length - 1) / 252 + 1 + iCmdSentNum h sent) % 8) % 8 := by
    show (iAdditionPkt (Download.start h buf sent).iEndIndex (iCmdSentNum h sent) +
      (Download.start h buf sent).iEndIndex).toNat = _
    rw [UInt8.toNat_add, hadd, hend]
    omega
  exact ⟨hend, htot, by rw [htot]; omega⟩

/-- A byte with the end mark, and one without it. -/
theorem end_mark (x : UInt8) : ((x ||| 0x80) &&& 0x80) ≠ 0 ∧ ((x &&& 0x7f) &&& 0x80) = 0 ∧
    (x &&& 0x7f).toNat ≤ x.toNat := by
  refine ⟨fun h => ?_, ?_, ?_⟩
  · have hbits := congrArg UInt8.toNat h
    rw [UInt8.toNat_and, UInt8.toNat_or, Nat.and_or_distrib_right] at hbits
    exact absurd (Nat.or_eq_zero_iff.mp hbits).2 (by decide)
  · rw [UInt8.and_assoc, show (0x7f : UInt8) &&& 0x80 = 0 from rfl, UInt8.and_zero]
  · rw [UInt8.toNat_and]
    exact Nat.and_le_left

/-- The index of a packet carries the end mark, or it is below `total_num`. -/
theorem choose_index {d : Download} (hend : d.iEndIndex ≤ d.iTotalIndex) :
    (d.choose.iCurIndex &&& 0x80) ≠ 0 ∨
      ((d.choose.iCurIndex &&& 0x80) = 0 ∧ d.choose.iCurIndex < d.iTotalIndex) := by
  have hlow : d.iCurIndex < d.iTotalIndex → (d.iCurIndex &&& 0x7f) < d.iTotalIndex := by
    intro hlt
    rw [UInt8.lt_iff_toNat_lt] at hlt ⊢
    exact Nat.lt_of_le_of_lt (end_mark d.iCurIndex).2.2 hlt
  rw [Download.choose]
  split
  · next hlt => exact .inr ⟨(end_mark _).2.1, hlow (UInt8.lt_of_lt_of_le hlt hend)⟩
  split
  · next heq =>
    show ((if _ then _ else _) &&& _) ≠ _ ∨
      ((if _ then _ else _) &&& _) = _ ∧ (if _ then _ else _) < _
    split
    · exact .inl (end_mark _).1
    · next hne =>
      refine .inr ⟨(end_mark _).2.1, hlow ?_⟩
      rw [UInt8.lt_iff_toNat_lt]
      rw [UInt8.le_iff_toNat_le, ← heq] at hend
      exact Nat.lt_of_le_of_ne hend fun h => hne (UInt8.toNat_inj.mp h)
  split
  · next hlt => exact .inr ⟨(end_mark _).2.1, hlow hlt⟩
  · exact .inl (end_mark _).1

@[simp] theorem next_iEndIndex (d : Download) : d.next.iEndIndex = d.iEndIndex := by
  rw [Download.next, Download.choose]
  split
  · rfl
  split
  · rfl
  split <;> rfl

@[simp] theorem next_iTotalIndex (d : Download) : d.next.iTotalIndex = d.iTotalIndex := by
  rw [Download.next, Download.choose]
  split
  · rfl
  split
  · rfl
  split <;> rfl

/-- A packet of the download keeps the order. -/
theorem packet_inOrder {s : Session} {d : Download} {h : Hw}
    {last : Bool} (hd : s.download = some d) (hsend : d.send s.hw = .ok h)
    (hin : deliver s.hw.log = some (last, s.hw.rxseqTxack)) (hc : Counted s last) :
    ∃ last', deliver h.log = some (last', h.rxseqTxack) ∧ Counted ⟨h, some d.next⟩ last' := by
  obtain ⟨nskb, rfl, -⟩ := hciDownloadPatch_ok hsend
  rw [Counted, hd] at hc
  obtain ⟨htot, hend, hmax, hlast⟩ := hc
  refine ⟨last || (d.choose.iCurIndex &&& 0x80) != 0, ?_, ?_⟩
  · exact deliver_patched hin _ _ _ _
  · refine ⟨?_, ?_, ?_, ?_⟩
    · rw [next_iTotalIndex]
      exact htot
    · rw [next_iEndIndex, next_iTotalIndex]
      exact hend
    · rw [next_iTotalIndex]
      exact hmax
    · intro htx
      rcases choose_index hend with hmark | ⟨hmark, hlt⟩
      · rw [Bool.or_eq_true, bne_iff_ne]
        exact .inr hmark
      · exfalso
        replace htx : (if d.choose.iCurIndex = s.hw.totalNum ||| 0x80 then s.hw.totalNum
          else d.choose.iCurIndex) = s.hw.totalNum := htx
        rw [if_neg] at htx
        · rw [htx, htot] at hlt
          exact UInt8.lt_irrefl _ hlt
        · intro heq
          rw [heq] at hmark
          exact (end_mark _).1 hmark

/-- A step keeps the order, if its bytes hold no reliable header out of order before the
download. -/
theorem Step.inOrder {freed : Hw → List UInt8 → UInt8} {s s' : Session} {chunk : List UInt8}
    {last : Bool} (hstep : Step freed s chunk s') (hR : Receiving s.hw)
    (hno : NoStray freed s chunk) (hin : deliver s.hw.log = some (last, s.hw.rxseqTxack))
    (hc : Counted s last) :
    ∃ last', deliver s'.hw.log = some (last', s'.hw.rxseqTxack) ∧ Counted s' last' := by
  cases hstep with
  | recv chunk hrecv =>
    -- only outside a download does a stray header change the number expected
    cases hd : s.download with
    | none =>
      obtain ⟨hin', htx, -⟩ := recv_chunk_inOrder hR hin
        (fun t m hreach hmore hstray _ => absurd hstray (hno hd t m hreach hmore))
        (received_reach hrecv)
      rw [Counted, hd] at hc
      exact ⟨last, hin', htx.trans hc⟩
    | some d =>
      rw [Counted, hd] at hc
      obtain ⟨htot, hend, hmax, hlast⟩ := hc
      obtain ⟨hin', htx, htot'⟩ := recv_chunk_inOrder hR hin (fun _ _ _ _ _ heq => hlast heq)
        (received_reach hrecv)
      exact ⟨last, hin', htot'.trans htot, hend, hmax, fun heq => hlast (htx ▸ htot' ▸ heq)⟩
  | send data pktType keep hprep =>
    obtain ⟨rel, -, rfl, -⟩ := h5PreparePkt_prepared hprep
    exact ⟨last, deliver_snoc hin (.wrote _), hc⟩
  | resend hlast => exact ⟨last, deliver_snoc hin (.wrote _), hc⟩
  | link l => exact ⟨last, hin, hc⟩
  | commands rom hci => exact ⟨last, hin, hc⟩
  | download buf sent hfirst hpos hmax =>
    obtain ⟨hend, htot, htot'⟩ := start_counts s.hw buf sent hpos hmax
    have hsent := iCmdSentNum_le s.hw sent
    have hne : (0 : UInt8) ≠ (Download.start s.hw buf sent).iTotalIndex := by
      intro h0
      rw [← h0] at htot
      have : (0 : Nat) = _ := htot
      omega
    rw [Counted, hfirst] at hc
    refine ⟨last, hin, rfl, ?_, ?_, fun htx => absurd (hc.symm.trans htx) hne⟩
    · rw [UInt8.le_iff_toNat_le]
      omega
    · rw [UInt8.lt_iff_toNat_lt]
      show _ < 128
      omega
  | packet hd hmore hsend => exact packet_inOrder hd hsend hin hc

/-- The runs in which no reliable packet out of order comes in before the download. -/
def InSequence (freed : Hw → List UInt8 → UInt8) : Session → Prop :=
  Relation.ReflTransGen (fun s s' => ∃ chunk, Step freed s chunk s' ∧ NoStray freed s chunk) .init

theorem InSequence.receiving {freed : Hw → List UInt8 → UInt8} {s : Session}
    (hs : InSequence freed s) : Receiving s.hw := by
  induction hs with
  | refl => exact receiving_init
  | tail _ hstep ih =>
    obtain ⟨chunk, hstep, -⟩ := hstep
    exact hstep.receiving ih

theorem InSequence.counted {freed : Hw → List UInt8 → UInt8} {s : Session}
    (hs : InSequence freed s) :
    ∃ last, deliver s.hw.log = some (last, s.hw.rxseqTxack) ∧ Counted s last := by
  induction hs with
  | refl => exact ⟨false, rfl, rfl⟩
  | tail hr hstep ih =>
    obtain ⟨chunk, hstep, hno⟩ := hstep
    obtain ⟨last, hin, hc⟩ := ih
    exact hstep.inOrder (InSequence.receiving hr) hno hin hc

/-- **Reliable packets are completed in order**, each with the number expected then, and the
number is taken over from a packet out of order only once the last packet of the download has
been sent: at every iteration of every such run. -/
theorem recv_in_order (freed : Hw → List UInt8 → UInt8) {s : Session} (hs : InSequence freed s)
    (chunk : List UInt8) (hno : NoStray freed s chunk) {h : Hw} {l : List UInt8}
    (hr : Reach recvMore (recvStep freed) (s.hw, chunk) (h, l)) : InOrder h := by
  obtain ⟨last, hin, hc⟩ := hs.counted
  refine ⟨last, (recv_chunk_inOrder hs.receiving hin ?_ hr).1⟩
  intro t m hreach hmore hstray heq
  cases hd : s.download with
  | none => exact absurd hstray (hno hd t m hreach hmore)
  | some d =>
    rw [Counted, hd] at hc
    exact hc.2.2.2 heq

/-- The first iterations on a packet that comes in during a download. -/
theorem recv_in_order_download :
    InOrder ((rtkInit.patchLink.counting (.start rtkInit [0x51] true)).opened) := by
  have hno : NoStray (fun _ _ => 0) .init [] := by
    intro _ h l hr hmore
    have hl : l = [] := hr.invariant (I := fun s => s.2 = []) rfl (by
      rintro ⟨t, m⟩ u hm hg
      replace hm : m = [] := hm
      subst hm
      cases hg)
    subst hl
    cases hmore
  exact recv_in_order (fun _ _ => 0)
    (s := ⟨rtkInit.patchLink.counting (.start rtkInit [0x51] true),
      some (.start rtkInit [0x51] true)⟩)
    (.single ⟨[], .download [0x51] true rfl (by decide) (by decide), hno⟩) [0xc0, 0x83]
    (fun h => nomatch h) (.tail (.tail .refl rfl rfl) rfl rfl)

/-! ### Before the download -/

/-- The number of a header out of order is taken over while the counters of the download
agree. -/
theorem recvHdr_stray {h : Hw} {skb : SkBuff} (freed : UInt8) (hstray : StrayHdr h skb)
    (htx : h.txIndex = h.totalNum) :
    recvHdr freed h skb = h.outOfOrder.resynced (hdrByte freed).seq := by
  simp only [recvHdr]
  rw [if_neg (not_not.mpr hstray.1), if_pos hstray.2, if_pos htx]

/-- A packet that is nothing but such a header changes the number expected next. -/
theorem stray_resyncs (freed : Hw → List UInt8 → UInt8) {h : Hw} (hcount : h.rxCount = 0)
    (hstate : h.rxState = .w4PktDelimiter ∨ h.rxState = .w4PktStart) (a b c : UInt8)
    (hrel : (hdrByte a).reliable = true) (hseq : (hdrByte a).seq ≠ h.rxseqTxack)
    (htx : h.txIndex = h.totalNum) :
    ∃ t v, Received freed h
      (0xc0 :: (slip.encode [a, b, c, hdrChecksum a b c] ++ [0xc0])) (.ok (t, [])) ∧
      t.log = h.log ++ [.resync (hdrByte (freed v [0xc0])).seq] ∧
      t.rxseqTxack = (hdrByte (freed v [0xc0])).seq := by
  obtain ⟨byte, e, hb⟩ := List.exists_cons_of_ne_nil
    (show slip.encode [a, b, c, hdrChecksum a b c] ≠ [] by
      rw [slip.encode_cons, Stuffing.stuff]
      split <;> exact List.cons_ne_nil _ _)
  have hb0 : byte ≠ 0xc0 := (slip_reserved (hb ▸ List.mem_cons_self)).1
  obtain ⟨skb, hd, -, hrun⟩ := slip_received freed h .w4Hdr [a, b, c, hdrChecksum a b c]
    (skbAlloc 0x1005) h5CrcInit 4 (Nat.le_refl 4) (by simp)
  rw [skbAlloc_data, List.nil_append] at hd
  have hlen : skb.data.length = 4 := by
    rw [hd]
    rfl
  have h0 : skb.byte 0 = a := by rw [byte_eq (by omega), hd]; rfl
  have h1 : skb.byte 1 = b := by rw [byte_eq (by omega), hd]; rfl
  have h2 : skb.byte 2 = c := by rw [byte_eq (by omega), hd]; rfl
  have h3 : skb.byte 3 = hdrChecksum a b c := by rw [byte_eq (by omega), hd]; rfl
  obtain ⟨v, hv⟩ : ∃ v, v = h.inPacket .w4Hdr skb
    (crcOver .w4Hdr skb h5CrcInit [a, b, c, hdrChecksum a b c]) 0 := ⟨_, rfl⟩
  replace hrun := hrun [0xc0] (.ok ({ v.outOfOrder.resynced (hdrByte (freed v [0xc0])).seq with
    rxState := .w4PktStart }, []))
  rw [List.length_cons, show 4 - ([b, c, hdrChecksum a b c].length + 1) = 0 from rfl, ← hv] at hrun
  -- the header is whole and its number is not the one expected
  have hstray : StrayHdr v skb := by
    rw [StrayHdr, h0, h1, h2, h3, hv]
    exact ⟨rfl, hrel, hseq⟩
  have htx' : v.txIndex = v.totalNum := by
    rw [hv]
    exact htx
  have hstep : recvStep freed (v, [0xc0]) =
      .ok (v.outOfOrder.resynced (hdrByte (freed v [0xc0])).seq, [0xc0]) := by
    rw [← recvHdr_stray _ hstray htx']
    subst hv
    rfl
  refine ⟨{ v.outOfOrder.resynced (hdrByte (freed v [0xc0])).seq with rxState := .w4PktStart }, v,
    ?_, ?_, rfl⟩
  · rw [hb, List.cons_append, start_received freed hcount hstate hb0, ← List.cons_append, ← hb]
    refine hrun.mpr ((ends_next rfl hstep).mpr ?_)
    exact (delimiter_received freed rfl rfl _).mpr rfl
  · rw [hv]
    rfl

/-- A first packet that is reliable and has the number 3. -/
theorem recv_out_of_order : ∃ s, Reachable (fun _ _ => 0x83) s ∧ s.download = none ∧
    s.hw.rxseqTxack = 3 ∧ s.hw.log = [.resync 3] ∧ ¬ InOrder s.hw := by
  obtain ⟨t, v, hrecv, hlog, hseq⟩ := stray_resyncs (fun _ _ => 0x83) (h := rtkInit) rfl (.inl rfl)
    0x83 0x04 0x00 rfl (by decide) rfl
  refine ⟨⟨t, none⟩, .single ⟨_, .recv _ hrecv⟩, rfl, hseq, hlog, ?_⟩
  rintro ⟨last, hin⟩
  rw [hlog] at hin
  cases hin

end Lichee.Bluetooth

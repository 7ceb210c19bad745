import Lichee.Bluetooth.Session

/- The packets of a download. A run of `rtk_download_fw_config` is a run of the session, so
   the receiver keeps its invariant through it, and the commands it writes carry a plain split of
   the buffer: the loop's eight-bit index, length and pointer are followed from one packet to the
   next (`LoopAt`), what `choose` picks at each is the packet of that index, and what is written
   is read back as its payload. -/
namespace Lichee.Bluetooth
open Base

/-! ## A download is a run of the session -/

theorem Reachable.step {freed : Hw → List UInt8 → UInt8} {s s' : Session} {chunk : List UInt8}
    (hs : Reachable freed s) (hstep : Step freed s chunk s') : Reachable freed s' :=
  .tail hs ⟨chunk, hstep⟩

theorem AwaitAck.reachable {freed : Hw → List UInt8 → UInt8} {h h' : Hw}
    {chunks : List (List UInt8)} {dl : Option Download} (hack : AwaitAck freed h chunks h')
    (hs : Reachable freed ⟨h, dl⟩) : Reachable freed ⟨h', dl⟩ := by
  induction hack with
  | acked _ => exact hs
  | read _ hrecv _ ih => exact ih (hs.step (.recv _ hrecv))

/-! ## The commands written -/

/-- The receiver writes none. -/
theorem RecvCase.commands {h h' : Hw} {byte : UInt8} {ptr l : List UInt8}
    (hcase : RecvCase h byte ptr (h', l)) : commands h'.log = commands h.log := by
  cases hcase with
  | header skb freed hstate hcount hskb =>
    rcases recvHdr_cases freed h skb with hr | hr | ⟨-, -, hr⟩ | ⟨-, hr⟩
    · rw [hr]
      rfl
    · rw [hr]
      rfl
    · rw [hr]
      show Bluetooth.commands (h.log ++ [_]) = _
      rw [commands_append]
      exact List.append_nil _
    · rw [hr]
      rfl
  | completes skb _ hstate hcount hlen hexp hdone =>
    obtain ⟨ws, hlog, hws⟩ := hdone.log
    rw [hlog, commands_append]
    show _ ++ Bluetooth.commands (ws.map .wrote) = _
    rw [commands_others hws, List.append_nil]
  | _ => rfl

theorem received_commands {freed : Hw → List UInt8 → UInt8} {h h' : Hw} {chunk : List UInt8}
    (hR : Receiving h) (hrecv : Received freed h chunk (.ok (h', []))) :
    commands h'.log = commands h.log := by
  refine (received_reach hrecv).invariant_reach (I := fun s => commands s.1.log = commands h.log)
    rfl ?_
  rintro ⟨t, m⟩ ⟨u, m'⟩ hreach ht hmore hstep
  obtain ⟨byte, ptr, -, hcase⟩ := recvStep_ok (receiving_reach hR hreach) hmore hstep
  exact hcase.commands.trans ht

theorem AwaitAck.commands {freed : Hw → List UInt8 → UInt8} {h h' : Hw}
    {chunks : List (List UInt8)} {dl : Option Download} (hack : AwaitAck freed h chunks h')
    (hs : Reachable freed ⟨h, dl⟩) : Bluetooth.commands h'.log = Bluetooth.commands h.log := by
  induction hack with
  | acked _ => rfl
  | read _ hrecv _ ih =>
    exact (ih (hs.step (.recv _ hrecv))).trans (received_commands hs.receiving hrecv)

theorem patchData_length (data : Option (List UInt8)) (len : UInt8) :
    (patchData data len).length ≤ 255 := by
  have hlen : len.toNat ≤ 255 := Nat.le_of_lt_succ len.toNat_lt
  unfold patchData
  split
  · rw [List.length_take]
    omega
  · rwa [zeros_length]

/-- A packet of the download is a command, whose payload is `hcipatch`; it is kept for a retry. -/
theorem hciDownloadPatch_commands {h h' : Hw} {index len : UInt8} {data : Option (List UInt8)}
    (hok : hciDownloadPatch h index data len = .ok h') :
    commands h'.log = commands h.log ++ [hcipatch index (patchData data len) len] ∧
      ∀ nskb, h'.hostLastCmd = some nskb →
        commandOf nskb.data = some (hcipatch index (patchData data len) len) := by
  obtain ⟨nskb, rfl, hline⟩ := hciDownloadPatch_ok hok
  have hshort : (hcipatch index (patchData data len) len).length ≤ 4095 := by
    have := patchData_length data len
    rw [hcipatch, List.length_append]
    show 4 + _ ≤ 4095
    omega
  have hcmd : commandOf nskb.data = some (hcipatch index (patchData data len) len) := by
    rw [hline, commandOf_command _ hshort]
  refine ⟨?_, fun nskb' hlast => ?_⟩
  · show commands ((h.log ++ [_]) ++ [_]) = _
    rw [commands_append, commands_append, commands_wrote hcmd]
    exact congrArg (· ++ _) (List.append_nil _)
  · cases hlast
    exact hcmd

/-! ## The split of the buffer -/

/-- The block of a packet: the padding packets behind the last block have none. -/
def blockOf (buf : List UInt8) (e i : Nat) : List UInt8 :=
  if i ≤ e then (buf.drop (PATCH_DATA_FIELD_MAX_SIZE * i)).take PATCH_DATA_FIELD_MAX_SIZE else []

/-- The index of a packet, with the mark of the last one. -/
def indexOf (t i : Nat) : UInt8 := if i = t then .ofNat i ||| 0x80 else .ofNat i

/-- The payload of a packet, from its index and its block: the opcode, the length of what is
behind it, the index and the block. -/
def patchPayload (p : UInt8 × List UInt8) : List UInt8 :=
  [0x20, 0xfc, .ofNat (p.2.length + 1), p.1] ++ p.2

/-- The last block has the index `e`, and the last packet `t`. -/
structure Splits (buf : List UInt8) (e t : Nat) : Prop where
  le : e ≤ t
  max : t < 128
  above : buf.length ≤ PATCH_DATA_FIELD_MAX_SIZE * (e + 1)
  below : PATCH_DATA_FIELD_MAX_SIZE * e < buf.length

/-- The loop before packet `i`. -/
structure LoopAt (buf : List UInt8) (e t : Nat) (d : Download) (i : Nat) : Prop where
  pos : d.i = i
  le : i ≤ t + 1
  index : i ≤ t → d.iCurIndex.toNat = i
  last : d.iEndIndex.toNat = e
  total : d.iTotalIndex.toNat = t
  lastLen : d.iLastPacketLen.toNat = buf.length - PATCH_DATA_FIELD_MAX_SIZE * e
  buf : i ≤ e → d.bufpatch = some (buf.drop (PATCH_DATA_FIELD_MAX_SIZE * i))

section Split
variable {buf : List UInt8} {e t : Nat}

theorem and_7f {x : UInt8} (h : x.toNat < 128) : x &&& 0x7f = x :=
  byte_cases (P := fun x => x.toNat < 128 → x &&& 0x7f = x) (by decide +kernel) x h

/-- What the loop picks is the packet of its index. -/
theorem LoopAt.choose {d : Download} {i : Nat} (hd : LoopAt buf e t d i) (hi : i ≤ t)
    (hsplit : Splits buf e t) : d.choose.iCurIndex = indexOf t i ∧
      patchData d.choose.bufpatch d.choose.iCurLen = blockOf buf e i ∧
      d.choose.iCurLen.toNat = (blockOf buf e i).length := by
  obtain ⟨het, ht, habove, hbelow⟩ := hsplit
  rw [Nat.mul_succ] at habove
  have hcur := hd.index hi
  have hof : UInt8.ofNat i = d.iCurIndex := by rw [← hcur, UInt8.ofNat_toNat]
  have h7f : d.iCurIndex &&& 0x7f = d.iCurIndex := and_7f (by omega)
  -- the comparisons of the loop are those of the numbers
  have hltE : d.iCurIndex < d.iEndIndex ↔ i < e := by
    rw [UInt8.lt_iff_toNat_lt, hcur, hd.last]
  have heqE : d.iCurIndex = d.iEndIndex ↔ i = e := by
    rw [← UInt8.toNat_inj, hcur, hd.last]
  have hltT : d.iCurIndex < d.iTotalIndex ↔ i < t := by
    rw [UInt8.lt_iff_toNat_lt, hcur, hd.total]
  have heqT : d.iCurIndex = d.iTotalIndex ↔ i = t := by
    rw [← UInt8.toNat_inj, hcur, hd.total]
  rw [Download.choose, indexOf, blockOf, hof]
  by_cases hlt : i < e
  · rw [if_pos (hltE.mpr hlt), if_neg (by omega), if_pos (by omega), hd.buf (by omega)]
    refine ⟨h7f, rfl, ?_⟩
    have hbelow' : 252 * e < buf.length := hbelow
    rw [List.length_take, List.length_drop]
    show (252 : Nat) = min 252 (buf.length - 252 * i)
    omega
  rw [if_neg (mt hltE.mp hlt)]
  by_cases heq : i = e
  · have hrest : (buf.drop (PATCH_DATA_FIELD_MAX_SIZE * i)).take PATCH_DATA_FIELD_MAX_SIZE =
        buf.drop (PATCH_DATA_FIELD_MAX_SIZE * i) := by
      refine List.take_of_length_le ?_
      rw [List.length_drop, heq]
      omega
    rw [if_pos (heqE.mpr heq), if_pos (by omega : i ≤ e), hd.buf (by omega), hrest]
    refine ⟨?_, ?_, ?_⟩
    · show (if _ then _ else _) = _
      by_cases hit : i = t
      · rw [if_pos (heqT.mpr hit), if_pos hit]
      · rw [if_neg (mt heqT.mp hit), if_neg hit, h7f]
    · show (buf.drop _).take d.iLastPacketLen.toNat = _
      rw [hd.lastLen, ← heq, List.take_of_length_le (by rw [List.length_drop])]
    · show d.iLastPacketLen.toNat = _
      rw [hd.lastLen, ← heq, List.length_drop]
  rw [if_neg (mt heqE.mp heq), if_neg (by omega : ¬ i ≤ e)]
  by_cases hlast : i < t
  · rw [if_pos (hltT.mpr hlast), if_neg (by omega)]
    exact ⟨h7f, rfl, rfl⟩
  · rw [if_neg (mt hltT.mp hlast), if_pos (by omega)]
    exact ⟨rfl, rfl, rfl⟩

/-- The command that is sent carries it. -/
theorem LoopAt.commands {d : Download} {h h' : Hw} {i : Nat} (hd : LoopAt buf e t d i) (hi : i ≤ t)
    (hsplit : Splits buf e t) (hsend : d.send h = .ok h') :
    Bluetooth.commands h'.log =
      Bluetooth.commands h.log ++ [patchPayload (indexOf t i, blockOf buf e i)] := by
  obtain ⟨hidx, hblk, hlen⟩ := hd.choose hi hsplit
  have hlen' : d.choose.iCurLen + 1 = .ofNat ((blockOf buf e i).length + 1) := by
    rw [← hlen, UInt8.ofNat_add, UInt8.ofNat_toNat]
    rfl
  rw [(hciDownloadPatch_commands hsend).1, hcipatch, hidx, hblk, hlen']
  rfl

/-- And behind it the loop is before the next packet. -/
theorem LoopAt.next {d : Download} {i : Nat} (hd : LoopAt buf e t d i) (hi : i ≤ t)
    (hsplit : Splits buf e t) : LoopAt buf e t d.next (i + 1) := by
  have hindex := (hd.choose hi hsplit).1
  have ht := hsplit.max
  have het := hsplit.le
  have hpos : d.next.i = d.i + 1 := by
    rw [Download.next, Download.choose]
    split
    · rfl
    split
    · rfl
    split <;> rfl
  have hlast : d.next.iLastPacketLen = d.iLastPacketLen := by
    rw [Download.next, Download.choose]
    split
    · rfl
    split
    · rfl
    split <;> rfl
  refine ⟨by rw [hpos, hd.pos], by omega, fun hi' => ?_, ?_, ?_, by rw [hlast, hd.lastLen],
    fun hie => ?_⟩
  · show (d.choose.iCurIndex + 1).toNat = i + 1
    rw [hindex, indexOf, if_neg (by omega), UInt8.toNat_add, UInt8.toNat_ofNat']
    show (i % 256 + 1) % 256 = i + 1
    omega
  · rw [next_iEndIndex, hd.last]
  · rw [next_iTotalIndex, hd.total]
  -- another block follows, so this one was of 252 bytes
  · have hchoose : d.choose.bufpatch = d.bufpatch := by
      have hlt : d.iCurIndex < d.iEndIndex := by
        rw [UInt8.lt_iff_toNat_lt, hd.index hi, hd.last]
        omega
      rw [Download.choose, if_pos hlt]
    have hlt : d.choose.iCurIndex < d.choose.iEndIndex := by
      have hend : d.choose.iEndIndex = d.iEndIndex := next_iEndIndex d
      rw [hend, UInt8.lt_iff_toNat_lt, hd.last, hindex, indexOf, if_neg (by omega),
        UInt8.toNat_ofNat']
      omega
    show (if _ then _ else _) = _
    rw [if_pos hlt, hchoose, hd.buf (by omega), Option.map_some, List.drop_drop, Nat.mul_succ]

/-- The loop sends the packets that are left, in order. -/
theorem Downloads.commands {freed : Hw → List UInt8 → UInt8} {d : Download} {h h' : Hw}
    {chunks : List (List UInt8)} (hrun : Downloads freed d h chunks h')
    (hsplit : Splits buf e t) :
    ∀ {i : Nat}, LoopAt buf e t d i → Reachable freed ⟨h, some d⟩ →
    Bluetooth.commands h'.log = Bluetooth.commands h.log ++
      (List.range' i (t + 1 - i)).map fun i => patchPayload (indexOf t i, blockOf buf e i) := by
  induction hrun with
  | @done d h hmore =>
    intro i hd _
    have : t + 1 - i = 0 := by
      rw [Download.more, hd.pos, hd.total] at hmore
      omega
    rw [this]
    exact (List.append_nil _).symm
  | @packet d h h₁ h₂ h₃ chunks rest hmore hsend hack hrest ih =>
    intro i hd hs
    have hi : i ≤ t := by
      rw [Download.more, hd.pos, hd.total] at hmore
      exact hmore
    have hs₁ : Reachable freed ⟨h₁, some d.next⟩ := hs.step (.packet rfl hmore hsend)
    rw [ih (hd.next hi hsplit) (hack.reachable hs₁), hack.commands hs₁,
      hd.commands hi hsplit hsend, List.append_assoc,
      show t + 1 - i = (t + 1 - (i + 1)) + 1 by omega, List.range'_succ, List.map_cons]
    rfl

/-! ## What a download sends -/

/-- The blocks of a split, one after the other, are the buffer. -/
theorem blocks_flatten (buf : List UInt8) (k n : Nat) :
    ((List.range n).map fun i => (buf.drop (k * i)).take k).flatten = buf.take (k * n) := by
  induction n with
  | zero => simp
  | succ n ih =>
    rw [List.range_succ, List.map_append, List.flatten_append, ih, Nat.mul_succ, List.take_add]
    simp only [List.map_cons, List.map_nil, List.flatten_cons, List.flatten_nil, List.append_nil]

/-- The packets of a buffer, `cmds` commands having been sent before. -/
structure SplitPackets (buf : List UInt8) (cmds : Nat) (ps : List (UInt8 × List UInt8)) : Prop where
  /-- Blocks of 1 to 252 bytes that are the buffer, and then as few empty ones as fill the
  window. -/
  blocks : ∃ bs k, ps.map Prod.snd = bs ++ List.replicate k [] ∧
    (∀ b ∈ bs, 1 ≤ b.length ∧ b.length ≤ 252) ∧ bs.flatten = buf ∧
    (ps.length + cmds) % 8 = 0 ∧ ∀ m < k, (bs.length + m + cmds) % 8 ≠ 0
  /-- The indices count from 0, below the bit of the end mark, which the last packet carries. -/
  index : ∀ i (hi : i < ps.length), (ps[i].1 &&& 0x7f).toNat = i ∧
    ((ps[i].1 &&& 0x80) ≠ 0 ↔ i + 1 = ps.length)

theorem indexOf_fields {t i : Nat} (ht : t < 128) (hi : i ≤ t) :
    (indexOf t i &&& 0x7f).toNat = i ∧ ((indexOf t i &&& 0x80) ≠ 0 ↔ i = t) := by
  have hall : ∀ n : Fin 128, (UInt8.ofNat n.val &&& 0x7f).toNat = n.val ∧
      (UInt8.ofNat n.val &&& 0x80) = 0 ∧ ((UInt8.ofNat n.val ||| 0x80) &&& 0x7f).toNat = n.val := by
    decide +kernel
  obtain ⟨hlow, hno, hmark⟩ := hall ⟨i, by omega⟩
  rw [indexOf]
  by_cases hit : i = t
  · rw [if_pos hit]
    exact ⟨hmark, fun _ => hit, fun _ => (end_mark _).1⟩
  · rw [if_neg hit]
    exact ⟨hlow, fun h => absurd hno h, fun h => absurd h hit⟩

/-- The split with the counts the code computes is as it should be. -/
theorem split_packets {buf : List UInt8} {cmds e t : Nat} (hpos : 0 < buf.length)
    (he : e = (buf.length - 1) / 252) (ht : t = e + (8 - (e + 1 + cmds) % 8) % 8)
    (hmax : t < 128) :
    SplitPackets buf cmds ((List.range (t + 1)).map fun i => (indexOf t i, blockOf buf e i)) := by
  refine ⟨⟨(List.range (e + 1)).map fun i => (buf.drop (252 * i)).take 252, t - e,
      ?_, ?_, ?_, ?_, ?_⟩,
    ?_⟩
  · rw [List.map_map, show t + 1 = (e + 1) + (t - e) by omega, List.range_add, List.map_append,
      List.map_map]
    -- the first `e + 1` packets carry the blocks, the others nothing
    congr 1
    · refine List.map_congr_left fun i hi => ?_
      rw [List.mem_range] at hi
      exact if_pos (by omega)
    · refine List.eq_replicate_iff.mpr ⟨by rw [List.length_map, List.length_range], fun b hb => ?_⟩
      obtain ⟨i, -, rfl⟩ := List.mem_map.mp hb
      exact if_neg (by show ¬ e + 1 + i ≤ e; omega)
  · intro b hb
    obtain ⟨i, hi, rfl⟩ := List.mem_map.mp hb
    rw [List.mem_range] at hi
    rw [List.length_take, List.length_drop]
    omega
  · rw [blocks_flatten, List.take_of_length_le (by omega)]
  · rw [List.length_map, List.length_range]
    omega
  · intro m hm
    rw [List.length_map, List.length_range]
    omega
  · intro i hi
    rw [List.length_map, List.length_range] at hi
    obtain ⟨hlow, hmark⟩ := indexOf_fields hmax (by omega : i ≤ t)
    simp only [List.getElem_map, List.getElem_range, List.length_map, List.length_range]
    exact ⟨hlow, by rw [hmark]; omega⟩

end Split

theorem start_splits (h : Hw) {buf : List UInt8} (sent : Bool) (hpos : 0 < buf.length)
    (hmax : buf.length ≤ RTK_PATCH_LENGTH_MAX) :
    Splits buf ((buf.length - 1) / 252) (Download.start h buf sent).iTotalIndex.toNat := by
  obtain ⟨-, htot, hle⟩ := start_counts h buf sent hpos hmax
  refine ⟨by omega, by omega, ?_, ?_⟩
  · show _ ≤ 252 * _
    omega
  · show 252 * _ < _
    omega

theorem start_loopAt (h : Hw) (buf : List UInt8) (sent : Bool) (hpos : 0 < buf.length)
    (hmax : buf.length ≤ RTK_PATCH_LENGTH_MAX) :
    LoopAt buf ((buf.length - 1) / 252) (Download.start h buf sent).iTotalIndex.toNat
      (.start h buf sent) 0 := by
  obtain ⟨hend, -, -⟩ := start_counts h buf sent hpos hmax
  refine ⟨rfl, Nat.zero_le _, fun _ => rfl, hend, rfl, ?_, fun _ => rfl⟩
  have hmod : (UInt8.ofNat (buf.length % 252)).toNat = buf.length % 252 := by
    rw [UInt8.toNat_ofNat']
    omega
  show (if (UInt8.ofNat (buf.length % 252)) = 0 then UInt8.ofNat 252
    else UInt8.ofNat (buf.length % 252)).toNat = buf.length - 252 * ((buf.length - 1) / 252)
  split
  · next h0 =>
    rw [h0] at hmod
    show 252 = _
    have : (0 : Nat) = buf.length % 252 := hmod
    omega
  · next h0 =>
    have hne : buf.length % 252 ≠ 0 := by
      intro hz
      exact h0 (by rw [hz]; rfl)
    rw [hmod]
    omega

/-- **The packets of a download.** Whatever run led to it, and whatever came in while its
packets were acknowledged: the commands that a download of 1 to 24576 bytes writes are the packets
of the split of its buffer, and no others. -/
theorem download_splits (freed : Hw → List UInt8 → UInt8) {s : Session} (hs : Reachable freed s)
    (hfirst : s.download = none) (buf : List UInt8) (hpos : 0 < buf.length)
    (hmax : buf.length ≤ RTK_PATCH_LENGTH_MAX) (isSentChangerate : Bool)
    {chunks : List (List UInt8)} {h' : Hw}
    (hrun : RtkDownloadFwConfig freed s.hw.patchLink buf isSentChangerate chunks h') :
    ∃ ps, commands h'.log = commands s.hw.log ++ ps.map patchPayload ∧
      SplitPackets buf (iCmdSentNum s.hw isSentChangerate) ps := by
  obtain ⟨hloop, hack⟩ := hrun
  obtain ⟨-, htot, hle⟩ := start_counts s.hw.patchLink buf isSentChangerate hpos hmax
  have hs₁ := hs.step (.download buf isSentChangerate hfirst hpos hmax)
  have hcommands := hloop.commands (start_splits _ isSentChangerate hpos hmax)
    (start_loopAt _ buf isSentChangerate hpos hmax) hs₁
  refine ⟨_, ?_, split_packets hpos rfl htot (by omega)⟩
  rw [List.map_map, List.range_eq_range', ← Nat.sub_zero (_ + 1)]
  refine Eq.trans ?_ hcommands
  -- the pure ack behind the loop is no command
  obtain ⟨h₂, hok, hsame⟩ := rtkSendPureAckDown_ok _
  cases hok.symm.trans hack
  obtain ⟨ws, hlog, hws⟩ := hsame.log
  rw [hlog, commands_append, commands_others hws, List.append_nil]

/-! ## Every download can be acknowledged -/

/-- The command complete event that acknowledges a packet. -/
def ackEvent (index : UInt8) : List UInt8 :=
  [cmdCompleteEvtCode, 0x05, 0x01, 0x20, 0xfc, 0x00, index]

/-- A receiver between frames on a link in `H5_PATCH`. -/
structure Patching (h : Hw) : Prop where
  count : h.rxCount = 0
  state : h.rxState = .w4PktDelimiter ∨ h.rxState = .w4PktStart
  link : h.linkEstabState = .patch

/-- What an acknowledgement sets. -/
def Hw.patchAcked (h : Hw) (index : UInt8) : Hw :=
  { h with
    rxIndex := index.toNat
    linkEstabState := if (index.toNat : Int) = h.totalNum.toNat then .active else .patch
    rxState := .w4PktDelimiter
    rxSkb := .null }

theorem complete_patch {h : Hw} {skb s' : SkBuff} (hlink : h.linkEstabState = .patch)
    (hpass : passUp (hdrPktType (skb.byte 1)) = true) (hpull : skbPull skb 4 = some s') :
    h5CompleteRxPkt h skb = .ok ((h.acked skb).patchAcked (s'.byte 6 &&& 0x7f)) := by
  have hlink' : (h.acked skb).linkEstabState = .patch := hlink
  simp only [h5CompleteRxPkt, hpass, if_true, pull, hpull, ok_bind, hciRecvFrame, hlink']
  rfl

theorem ack_received (freed : Hw → List UInt8 → UInt8) {h : Hw} (hp : Patching h) (index : UInt8)
    (hindex : index.toNat < 128) :
    ∃ chunk h', Received freed h chunk (.ok (h', [])) ∧ h'.rxIndex = index.toNat ∧
      h'.txIndex = h.txIndex ∧ h'.totalNum = h.totalNum ∧
      (index ≠ h.totalNum → Patching h') := by
  have ht : reliableType HCI_EVENT_PKT = some true := rfl
  obtain ⟨state, skb₀, crc, skb, hd, t, hstep, hmore, hrecv⟩ :=
    packet_received freed (s := { rtkInit with msgqTxseq := h.rxseqTxack }) (h := h) ht
      (show (ackEvent index).length ≤ 4095 from Nat.le_of_ble_eq_true rfl) hp.count hp.state rfl
  have hlen : skb.data.length = 11 := by
    rw [hd]
    rfl
  obtain ⟨s', hpull, hd'⟩ := skbPull_some skb 4 (by omega)
  have hdata : s'.data = ackEvent index := by
    rw [hd', hd]
    rfl
  -- the index is the last byte of the event
  have hbyte : s'.byte 6 &&& 0x7f = index := by
    rw [byte_eq (show 6 < s'.data.length by rw [hdata]; exact Nat.le_refl 7), hdata]
    exact and_7f hindex
  have hpass : passUp (hdrPktType (skb.byte 1)) = true := by
    rw [byte_hdr hd (by decide), h5Header_pktType _ _ ht]
    rfl
  have hnext : recvStep freed t = .ok (((h.inPacket state skb₀ crc 0).acked skb).patchAcked index,
      [0xc0]) := by
    rw [hstep, completeStep, complete_patch (h := h.inPacket state skb₀ crc 0) hp.link hpass hpull,
      hbyte]
    rfl
  refine ⟨_, { ((h.inPacket state skb₀ crc 0).acked skb).patchAcked index with
    rxState := .w4PktStart }, (hrecv _).mpr ?_, rfl, rfl, rfl, fun hne => ⟨rfl, .inr rfl, ?_⟩⟩
  · rw [ends_next hmore hnext, delimiter_received freed rfl rfl]
  · have hne' : (index.toNat : Int) ≠ h.totalNum.toNat := by
      intro heq
      exact hne (UInt8.toNat_inj.mp (Int.ofNat.inj heq))
    exact if_neg hne'

/-- A packet is sent from any state. -/
theorem send_ok (d : Download) (h : Hw) : ∃ nskb, d.send h =
    .ok (((h.indexed d.choose.iCurIndex).prepared true).patched d.choose.iCurIndex
      (patchData d.choose.bufpatch d.choose.iCurLen) nskb) := by
  obtain ⟨nskb, hprep, -⟩ := h5PreparePkt_sends (h.indexed d.choose.iCurIndex)
    (hcipatch d.choose.iCurIndex (patchData d.choose.bufpatch d.choose.iCurLen) d.choose.iCurLen)
    (rfl : reliableType HCI_COMMAND_PKT = some true)
  refine ⟨nskb, ?_⟩
  rw [Download.send, hciDownloadPatch]
  simp only [hprep, ok_bind]

/-- The counter of a packet being sent is its number. -/
theorem indexed_txIndex {h : Hw} {t i : Nat} (htot : h.totalNum.toNat = t) (ht : t < 128)
    (hi : i ≤ t) : (h.indexed (indexOf t i)).txIndex = .ofNat i := by
  have hof : h.totalNum = .ofNat t := by rw [← htot, UInt8.ofNat_toNat]
  show (if _ then _ else _) = _
  rw [indexOf, hof]
  by_cases hit : i = t
  · rw [if_pos hit, hit, if_pos rfl]
  · rw [if_neg hit, if_neg]
    intro heq
    have hmark := (indexOf_fields ht hi).2
    rw [indexOf, if_neg hit, heq] at hmark
    exact hit (hmark.mp (end_mark _).1)

theorem downloads_acknowledged (freed : Hw → List UInt8 → UInt8) (buf : List UInt8) {e t : Nat}
    (hsplit : Splits buf e t) (n : Nat) :
    ∀ {d : Download} {h : Hw} {i : Nat}, n = t + 1 - i → LoopAt buf e t d i →
    h.totalNum.toNat = t → (i ≤ t → Patching h) → ∃ chunks h', Downloads freed d h chunks h' := by
  induction n with
  | zero =>
    intro d h i hn hd _ _
    refine ⟨_, h, .done ?_⟩
    rw [Download.more, hd.pos, hd.total]
    omega
  | succ n ih =>
    intro d h i hn hd htot hp
    have hi : i ≤ t := by omega
    have hmore : d.more := by
      rw [Download.more, hd.pos, hd.total]
      exact hi
    obtain ⟨nskb, hsend⟩ := send_ok d h
    rw [(hd.choose hi hsplit).1] at hsend
    have ht := hsplit.max
    generalize hh₁ : ((h.indexed (indexOf t i)).prepared true).patched (indexOf t i)
      (patchData d.choose.bufpatch d.choose.iCurLen) nskb = h₁ at hsend
    have hp₁ : Patching h₁ := by
      rw [← hh₁]
      exact ⟨(hp hi).count, (hp hi).state, (hp hi).link⟩
    have htx : h₁.txIndex = .ofNat i := by
      rw [← hh₁]
      exact indexed_txIndex htot ht hi
    have htot₁ : h₁.totalNum.toNat = t := by
      rw [← hh₁]
      exact htot
    have hval : (UInt8.ofNat i).toNat = i := by
      rw [UInt8.toNat_ofNat']
      omega
    -- an index that was the last one acknowledged already is not waited for
    have hack : ∃ chunks h₂, AwaitAck freed h₁ chunks h₂ ∧ h₂.totalNum.toNat = t ∧
        (i + 1 ≤ t → Patching h₂) := by
      by_cases hacked : h₁.rxIndex = h₁.txIndex.toNat
      · exact ⟨_, h₁, .acked hacked, htot₁, fun _ => hp₁⟩
      · obtain ⟨chunk, h₂, hrecv, hrx, htx₂, htot₂, hp₂⟩ :=
          ack_received freed hp₁ (.ofNat i) (by omega)
        refine ⟨_, h₂, .read hacked hrecv (.acked ?_), htot₂ ▸ htot₁, fun hlt => hp₂ ?_⟩
        · rw [hrx, htx₂, htx]
        · intro heq
          rw [← heq, hval] at htot₁
          omega
    obtain ⟨chunks, h₂, hawait, htot₂, hp₂⟩ := hack
    obtain ⟨rest, h₃, hrest⟩ := ih (by omega) (hd.next hi hsplit) htot₂ hp₂
    exact ⟨_, h₃, .packet hmore hsend hawait hrest⟩

/-- The acknowledgements of a download can all be received. -/
theorem download_acknowledged (freed : Hw → List UInt8 → UInt8) {h : Hw} (hcount : h.rxCount = 0)
    (hstate : h.rxState = .w4PktDelimiter ∨ h.rxState = .w4PktStart) (buf : List UInt8)
    (hpos : 0 < buf.length) (hmax : buf.length ≤ RTK_PATCH_LENGTH_MAX) (sent : Bool) :
    ∃ chunks h', RtkDownloadFwConfig freed h.patchLink buf sent chunks h' := by
  obtain ⟨chunks, h₁, hloop⟩ := downloads_acknowledged freed buf
    (start_splits h.patchLink sent hpos hmax) _ rfl (start_loopAt h.patchLink buf sent hpos hmax)
    (h := h.patchLink.counting (.start h.patchLink buf sent)) rfl
    fun _ => ⟨hcount, hstate, rfl⟩
  obtain ⟨h₂, hack, -⟩ := rtkSendPureAckDown_ok h₁
  exact ⟨chunks, h₂, hloop, hack⟩

/-- The download of one byte, from the start. -/
theorem download_splits_byte : ∃ chunks h',
    RtkDownloadFwConfig (fun _ _ => 0) rtkInit.patchLink [0x51] true chunks h' ∧
    ∃ ps, commands h'.log = commands rtkInit.log ++ ps.map patchPayload ∧
      SplitPackets [0x51] (iCmdSentNum rtkInit true) ps := by
  obtain ⟨chunks, h', hrun⟩ := download_acknowledged (fun _ _ => 0) (h := rtkInit) rfl (.inl rfl)
    [0x51] (by decide) (by decide) true
  exact ⟨chunks, h', hrun, download_splits (fun _ _ => 0) (s := .init) .refl rfl [0x51] (by decide)
    (by decide) true hrun⟩

end Lichee.Bluetooth

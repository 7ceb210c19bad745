import Lichee.Bluetooth.Receiver

/- A packet over the line. Fed the bytes of one packet, a receiver between frames stores the
   header, the payload and the CRC of it, byte by byte as they were before the escapes
   (`slip_received`), finds the checksums right, and completes a buffer that holds header and
   payload (`packet_received`). The packet is delivered unless its handler ends the program:
   in `H5_INIT`, at a command complete event too short for the two headers that
   `hci_event_cmd_complete` pulls (`h5_round_trip_iff`). -/
namespace Lichee.Bluetooth
open Base

/-! ## Bytes through the escapes -/

/-- The receiver inside a packet: its state, the buffer, the CRC so far and the bytes still
expected. -/
def Hw.inPacket (h : Hw) (state : RxState) (skb : SkBuff) (crc : UInt16) (count : Nat) : Hw :=
  { h with
    rxState := state
    rxSkb := .live skb
    messageCrc := crc
    rxEscState := .noEsc
    rxCount := count }

/-- The CRC after `l` went into the buffer, which is then `skb`. -/
def crcOver (state : RxState) (skb : SkBuff) (crc : UInt16) (l : List UInt8) : UInt16 :=
  if (hdrByte (skb.byte 0)).crc = true ∧ state ≠ .w4Crc then l.foldl h5CrcUpdate crc else crc

section Feed
variable (freed : Hw → List UInt8 → UInt8)

/-- An expected byte that is no delimiter goes through `h5_unslip_one_byte`. -/
theorem recvStep_unslip {h h' : Hw} {byte : UInt8} (ptr : List UInt8) (hc : h.rxCount ≠ 0)
    (hb : byte ≠ 0xc0) (hu : h5UnslipOneByte h byte = .ok h') :
    recvStep freed (h, byte :: ptr) = .ok (h', ptr) := by
  rw [recvStep, if_pos hc, if_neg hb, hu]
  rfl

/-- A byte, escaped as the sender escapes it, is stored. -/
theorem stuff_received {h : Hw} {skb skb' : SkBuff} {c : UInt8} (rest : List UInt8)
    (hskb : h.rxSkb = .live skb) (hesc : h.rxEscState = .noEsc) (hc : h.rxCount ≠ 0)
    (hput : put skb [c] = .ok skb') (r : Except Crash (Hw × List UInt8)) :
    Ends recvMore (recvStep freed) (h, slip.stuff c ++ rest) r ↔
      Ends recvMore (recvStep freed) (h.stored skb' c, rest) r := by
  cases hcode : slipCode c with
  | some d =>
    have hstuff : slip.stuff c = [0xdb, d] := by
      rw [Stuffing.stuff, show slip.code c = some d from hcode]
      rfl
    have hback : slipBack d = some c := slip.back_code c d hcode
    have hd : d ≠ 0xc0 := by
      rcases slipCode_some hcode with rfl | rfl | rfl | rfl <;> decide
    -- two turns: the escape, and the code that gives the byte back
    have hu₁ : h5UnslipOneByte h 0xdb = .ok { h with rxEscState := .esc } := by
      simp only [h5UnslipOneByte, hesc, if_true]
    have hu₂ : h5UnslipOneByte { h with rxEscState := .esc } d = .ok (h.stored skb' c) := by
      simp only [h5UnslipOneByte, hback, h5StoreByte, hskb, hput, ok_bind]
      rfl
    have hs₁ := recvStep_unslip freed (d :: rest) hc (by decide : (0xdb : UInt8) ≠ 0xc0) hu₁
    have hs₂ := recvStep_unslip freed (h := { h with rxEscState := .esc }) rest hc hd hu₂
    rw [hstuff]
    exact (ends_next rfl hs₁).trans (ends_next rfl hs₂)
  | none =>
    have hstuff : slip.stuff c = [c] := by
      rw [Stuffing.stuff, show slip.code c = none from hcode]
    have hdb : c ≠ 0xdb := slip.ne_esc hcode
    have hc0 : c ≠ 0xc0 := by
      rintro rfl
      cases hcode
    have hu : h5UnslipOneByte h c = .ok (h.stored skb' c) := by
      simp only [h5UnslipOneByte, hesc, if_neg hdb, h5StoreByte, hskb, hput, ok_bind]
    rw [hstuff]
    exact ends_next rfl (recvStep_unslip freed rest hc hc0 hu)

/-- **Bytes over the line.** As many as are expected, and as the buffer has room for, end up
in it as they were sent. -/
theorem slip_received (h : Hw) (state : RxState) (l : List UInt8) :
    ∀ (skb : SkBuff) (crc : UInt16) (count : Nat), l.length ≤ count →
    skb.data.length + l.length ≤ skb.maxLen →
    ∃ skb', skb'.data = skb.data ++ l ∧ skb'.maxLen = skb.maxLen ∧ ∀ rest r,
      Ends recvMore (recvStep freed) (h.inPacket state skb crc count, slip.encode l ++ rest) r ↔
      Ends recvMore (recvStep freed)
        (h.inPacket state skb' (crcOver state skb' crc l) (count - l.length), rest) r := by
  induction l with
  | nil =>
    intro skb crc count _ _
    refine ⟨skb, (List.append_nil _).symm, rfl, fun rest r => ?_⟩
    rw [crcOver, List.foldl_nil, ite_self, slip.encode_nil]
    rfl
  | cons c l ih =>
    intro skb crc count hcount hroom
    rw [List.length_cons] at hcount hroom
    obtain ⟨s₁, hput, hd₁, hm₁⟩ := put_room skb [c] (by
      rw [List.length_singleton]
      omega)
    have hl₁ : s₁.data.length = skb.data.length + 1 := by
      rw [hd₁, List.length_append, List.length_singleton]
    obtain ⟨skb', hd, hm, hrun⟩ := ih s₁ (crcOver state s₁ crc [c]) (count - 1) (by omega)
      (by omega)
    have hcrc : crcOver state skb' (crcOver state s₁ crc [c]) l =
        crcOver state skb' crc (c :: l) := by
      rw [crcOver, crcOver, crcOver, byte_of_data hd (by omega)]
      split <;> rfl
    refine ⟨skb', ?_, hm.trans hm₁, fun rest r => ?_⟩
    · rw [hd, hd₁, List.append_assoc, List.singleton_append]
    · rw [slip.encode_cons, List.append_assoc, List.length_cons, Nat.add_comm, ← Nat.sub_sub,
        ← hcrc, ← hrun rest r]
      exact stuff_received freed _ rfl rfl (by show count ≠ 0; omega) hput r

end Feed

/-! ## The header -/

/-- The trailer read back is the CRC it was written from. -/
theorem trailer_read (bytes : List UInt8) :
    ((h5Trailer bytes).getD 1 0).toUInt16 + ((h5Trailer bytes).getD 0 0).toUInt16 <<< 8 =
      bitRev16 (bytes.foldl h5CrcUpdate h5CrcInit) := by
  show (bitRev16 (bytes.foldl h5CrcUpdate h5CrcInit)).toUInt8.toUInt16 +
    (bitRev16 (bytes.foldl h5CrcUpdate h5CrcInit) >>> 8).toUInt8.toUInt16 <<< 8 = _
  generalize bitRev16 (bytes.foldl h5CrcUpdate h5CrcInit) = crc
  have := crc.toNat_lt
  rw [← UInt16.toNat_inj]
  simp [Nat.shiftRight_eq_div_pow, Nat.shiftLeft_eq]
  omega

/-- A buffer that begins with the header is read as the header. -/
theorem byte_hdr {skb : SkBuff} {s : Hw} {len : Nat} {pktType : UInt8} {rel : Bool}
    {l : List UInt8} (hd : skb.data = h5Header s len pktType rel ++ l) {i : Nat} (hi : i < 4) :
    skb.byte i = (h5Header s len pktType rel).getD i 0 := by
  rw [byte_eq (by rw [hd, List.length_append, h5Header_length]; omega), hd,
    List.getD_eq_getElem?_getD, List.getElem?_append_left hi, List.getD_eq_getElem?_getD]

/-! ## A packet over the line -/

section Packet
variable (freed : Hw → List UInt8 → UInt8) {s h : Hw} {data : List UInt8} {pktType : UInt8}
  {rel : Bool}

/-- The delimiter, and the first byte behind it. -/
theorem start_received (hcount : h.rxCount = 0)
    (hstate : h.rxState = .w4PktDelimiter ∨ h.rxState = .w4PktStart) {byte : UInt8}
    (hbyte : byte ≠ 0xc0) (rest : List UInt8) (r : Except Crash (Hw × List UInt8)) :
    Received freed h (0xc0 :: byte :: rest) r ↔
      Ends recvMore (recvStep freed)
        (h.inPacket .w4Hdr (skbAlloc 0x1005) h5CrcInit 4, byte :: rest) r := by
  have hc : ¬ h.rxCount ≠ 0 := not_not.mpr hcount
  have hdelim : recvStep freed (h, 0xc0 :: byte :: rest) =
      .ok ({ h with rxState := .w4PktStart }, byte :: rest) := by
    rcases hstate with hstate | hstate
    · simp only [recvStep, if_neg hc, hstate, if_true]
    · have hself : ({ h with rxState := .w4PktStart } : Hw) = h := by rw [← hstate]
      simp only [recvStep, if_neg hc, hself, hstate, if_true]
  have hopen : recvStep freed ({ h with rxState := .w4PktStart }, byte :: rest) =
      .ok (h.inPacket .w4Hdr (skbAlloc 0x1005) h5CrcInit 4, byte :: rest) := by
    simp only [recvStep, if_neg hc, if_neg hbyte]
    rfl
  exact (ends_next rfl hdelim).trans (ends_next rfl hopen)

/-- A header with the number that is expected is followed by its payload. -/
theorem header_received (ht : reliableType pktType = some rel) (hlen : data.length ≤ 4095)
    (hseq : h.rxseqTxack = s.msgqTxseq) {skb : SkBuff} {crc : UInt16}
    (hd : skb.data = h5Header s data.length pktType rel) {byte : UInt8} (rest : List UInt8)
    (r : Except Crash (Hw × List UInt8)) :
    Ends recvMore (recvStep freed) (h.inPacket .w4Hdr skb crc 0, byte :: rest) r ↔
      Ends recvMore (recvStep freed) (h.inPacket .w4Data skb crc data.length, byte :: rest) r := by
  have hd' : skb.data = h5Header s data.length pktType rel ++ [] := by rw [hd, List.append_nil]
  have hsum : hdrChecksum (skb.byte 0) (skb.byte 1) (skb.byte 2) = skb.byte 3 := by
    rw [byte_hdr hd' (by decide), byte_hdr hd' (by decide), byte_hdr hd' (by decide),
      byte_hdr hd' (by decide)]
    rfl
  have hexp : ¬ ((hdrByte (skb.byte 0)).reliable = true ∧
      (hdrByte (skb.byte 0)).seq ≠ (h.inPacket .w4Hdr skb crc 0).rxseqTxack) := by
    rw [byte_hdr hd' (by decide), h5Header_hdrByte]
    rintro ⟨hrel, hne⟩
    exact hne ((if_pos hrel).trans hseq.symm)
  have hpay : hdrLen (skb.byte 1) (skb.byte 2) = data.length := by
    rw [byte_hdr hd' (by decide), byte_hdr hd' (by decide), h5Header_hdrLen s ht hlen]
  refine ends_next rfl ?_
  show Except.ok (recvHdr _ (h.inPacket .w4Hdr skb crc 0) skb, byte :: rest) = _
  rw [recvHdr, if_neg (not_not.mpr hsum), if_neg hexp, hpay]
  rfl

theorem slip_encode_ne_nil (s : Hw) (data : List UInt8) (pktType : UInt8) (rel : Bool) :
    slip.encode (h5Packet s data pktType rel) ≠ [] := by
  rw [h5Packet, h5Header, List.append_assoc, List.cons_append, slip.encode_cons, Stuffing.stuff]
  split <;> exact List.cons_ne_nil _ _

/-- What the packet is completed from. -/
def completeStep (h : Hw) (skb : SkBuff) : Except Crash (Hw × List UInt8) := do
  let h ← h5CompleteRxPkt h skb
  .ok (h, [0xc0])

/-- Without a CRC the packet is completed behind its payload. -/
theorem plain_completes {skb : SkBuff} (crc : UInt16) (hcrc : (hdrByte (skb.byte 0)).crc = false) :
    recvStep freed (h.inPacket .w4Data skb crc 0, [0xc0]) =
      completeStep (h.inPacket .w4Data skb crc 0) skb := by
  have hc : ¬ (h.inPacket .w4Data skb crc 0).rxCount ≠ 0 := not_not.mpr rfl
  rw [recvStep, if_neg hc]
  show (if _ then _ else _) = _
  rw [hcrc, if_neg Bool.false_ne_true]
  rfl

/-- With one, its two bytes are expected. -/
theorem crc_awaited {skb : SkBuff} {crc : UInt16} (hcrc : (hdrByte (skb.byte 0)).crc = true)
    {byte : UInt8} (rest : List UInt8) (r : Except Crash (Hw × List UInt8)) :
    Ends recvMore (recvStep freed) (h.inPacket .w4Data skb crc 0, byte :: rest) r ↔
      Ends recvMore (recvStep freed) (h.inPacket .w4Crc skb crc 2, byte :: rest) r := by
  have hc : ¬ (h.inPacket .w4Data skb crc 0).rxCount ≠ 0 := not_not.mpr rfl
  refine ends_next rfl ?_
  rw [recvStep, if_neg hc]
  show (if _ then _ else _) = _
  rw [if_pos hcrc]
  rfl

/-- Where they are those of the CRC, the packet is completed without them. -/
theorem crc_completes {skb : SkBuff} {crc : UInt16} {bytes : List UInt8}
    (hd : skb.data = bytes ++ h5Trailer bytes) (hcrc : crc = bytes.foldl h5CrcUpdate h5CrcInit) :
    ∃ skb', skb'.data = bytes ∧ recvStep freed (h.inPacket .w4Crc skb crc 0, [0xc0]) =
      completeStep (h.inPacket .w4Crc skb crc 0) skb' := by
  have hc : ¬ (h.inPacket .w4Crc skb crc 0).rxCount ≠ 0 := not_not.mpr rfl
  have hlen : skb.data.length = bytes.length + 2 := by
    rw [hd, List.length_append]
    rfl
  have hget : ∀ i, i < 2 → skb.byte (bytes.length + i) = (h5Trailer bytes).getD i 0 := by
    intro i hi
    rw [byte_eq (by omega), hd, List.getD_eq_getElem?_getD, List.getElem?_append_right (by omega),
      Nat.add_sub_cancel_left, List.getD_eq_getElem?_getD]
  have hgood : ¬ bitRev16 (h.inPacket .w4Crc skb crc 0).messageCrc ≠ h5GetCrc skb := by
    rw [not_not, h5GetCrc, hlen, Nat.add_sub_cancel, hget 1 (by decide)]
    show bitRev16 crc = _ + (skb.byte (bytes.length + 0)).toUInt16 <<< 8
    rw [hget 0 (by decide), trailer_read, hcrc]
  refine ⟨skbTrim skb (skb.data.length - 2), ?_, ?_⟩
  · rw [skbTrim_data skb _ (by omega), hlen, Nat.add_sub_cancel, hd, List.take_left]
  · rw [recvStep, if_neg hc]
    show (if _ then _ else _) = _
    rw [if_neg hgood]
    rfl

/-- From the delimiter on a receiver between frames takes a packet to a buffer of header and
payload, with the CRC over both. -/
theorem payload_received (ht : reliableType pktType = some rel) (hlen : data.length ≤ 4095)
    (hcount : h.rxCount = 0) (hstate : h.rxState = .w4PktDelimiter ∨ h.rxState = .w4PktStart)
    (hseq : h.rxseqTxack = s.msgqTxseq) :
    ∃ skb crc, skb.data = h5Header s data.length pktType rel ++ data ∧ skb.maxLen = 0x1005 ∧
      (hdrByte (skb.byte 0)).crc = s.useCrc ∧
      (s.useCrc = true →
        crc = (h5Header s data.length pktType rel ++ data).foldl h5CrcUpdate h5CrcInit) ∧
      ∀ r, Received freed h (0xc0 :: (slip.encode (h5Packet s data pktType rel) ++ [0xc0])) r ↔
        Ends recvMore (recvStep freed) (h.inPacket .w4Data skb crc 0,
          slip.encode (if s.useCrc then h5Trailer (h5Header s data.length pktType rel ++ data)
            else []) ++ [0xc0]) r := by
  obtain ⟨b, e, hb⟩ := List.exists_cons_of_ne_nil
    (slip_encode_ne_nil s data pktType rel)
  have hb0 : b ≠ 0xc0 := (slip_reserved (hb ▸ List.mem_cons_self)).1
  -- the header
  obtain ⟨s₁, hd₁, hm₁, hrun₁⟩ := slip_received freed h .w4Hdr (h5Header s data.length pktType rel)
    (skbAlloc 0x1005) h5CrcInit 4 (Nat.le_refl 4) (by simp [h5Header_length])
  rw [skbAlloc_data, List.nil_append] at hd₁
  rw [skbAlloc_maxLen] at hm₁
  -- the payload
  obtain ⟨s₂, hd₂, hm₂, hrun₂⟩ := slip_received freed h .w4Data data s₁
    (crcOver .w4Hdr s₁ h5CrcInit (h5Header s data.length pktType rel)) data.length (Nat.le_refl _)
    (by rw [hd₁, hm₁, h5Header_length]; omega)
  rw [hd₁] at hd₂
  have hbyte : s₁.byte 0 = s₂.byte 0 := by
    rw [byte_hdr hd₂ (by decide), byte_hdr (hd₁.trans (List.append_nil _).symm) (by decide)]
  have hcrc : (hdrByte (s₂.byte 0)).crc = s.useCrc := by
    rw [byte_hdr hd₂ (by decide), h5Header_hdrByte]
  refine ⟨s₂, crcOver .w4Data s₂ (crcOver .w4Hdr s₁ h5CrcInit
    (h5Header s data.length pktType rel)) data, hd₂, hm₂.trans hm₁, hcrc, fun hu => ?_, fun r => ?_⟩
  · rw [crcOver, crcOver, hbyte, hcrc, if_pos ⟨hu, by decide⟩, if_pos ⟨hu, by decide⟩,
      List.foldl_append]
  · rw [hb, List.cons_append, start_received freed hcount hstate hb0, ← List.cons_append, ← hb,
      h5Packet, slip.encode_append, slip.encode_append, List.append_assoc, List.append_assoc,
      hrun₁]
    obtain ⟨b', e', hb'⟩ := List.exists_cons_of_ne_nil (List.append_ne_nil_of_right_ne_nil
      (slip.encode data) (List.append_ne_nil_of_right_ne_nil (slip.encode
        (if s.useCrc then h5Trailer (h5Header s data.length pktType rel ++ data) else []))
        (List.cons_ne_nil 0xc0 [])))
    rw [hb', h5Header_length, Nat.sub_self, header_received freed ht hlen hseq hd₁, ← hb', hrun₂,
      Nat.sub_self]

/-- **One packet.** From its delimiter on a receiver between frames takes it to a buffer of
header and payload, with nothing changed but what belongs to the packet, and completes it. -/
theorem packet_received (ht : reliableType pktType = some rel) (hlen : data.length ≤ 4095)
    (hcount : h.rxCount = 0) (hstate : h.rxState = .w4PktDelimiter ∨ h.rxState = .w4PktStart)
    (hseq : h.rxseqTxack = s.msgqTxseq) :
    ∃ state skb₀ crc skb, skb.data = h5Header s data.length pktType rel ++ data ∧
      ∃ t, recvStep freed t = completeStep (h.inPacket state skb₀ crc 0) skb ∧
        recvMore t = true ∧ ∀ r,
        Received freed h (0xc0 :: (slip.encode (h5Packet s data pktType rel) ++ [0xc0])) r ↔
          Ends recvMore (recvStep freed) t r := by
  obtain ⟨s₂, crc, hd, hm, hcrc, hover, hpay⟩ :=
    payload_received freed ht hlen hcount hstate hseq
  cases hu : s.useCrc with
  | false =>
    rw [hu] at hcrc
    refine ⟨_, _, _, s₂, hd, _, plain_completes freed crc hcrc, rfl, fun r => ?_⟩
    rw [hpay r, hu]
    rfl
  | true =>
    rw [hu] at hcrc
    -- the trailer, in the same buffer
    obtain ⟨s₃, hd₃, -, hrun₃⟩ := slip_received freed h .w4Crc
      (h5Trailer (h5Header s data.length pktType rel ++ data)) s₂
      ((h5Header s data.length pktType rel ++ data).foldl h5CrcUpdate h5CrcInit) 2 (Nat.le_refl 2)
      (by
        rw [hd, hm, List.length_append, h5Header_length]
        show 4 + data.length + 2 ≤ 0x1005
        omega)
    rw [hd] at hd₃
    obtain ⟨skb', hd', hstep⟩ := crc_completes freed (h := h) hd₃ rfl
    refine ⟨_, _, _, skb', hd', _, hstep, rfl, fun r => ?_⟩
    rw [hpay r, hu, if_pos rfl, hover hu]
    obtain ⟨b', e', hb'⟩ := List.exists_cons_of_ne_nil (List.append_ne_nil_of_right_ne_nil
      (slip.encode (h5Trailer (h5Header s data.length pktType rel ++ data)))
      (List.cons_ne_nil 0xc0 []))
    rw [hb', crc_awaited freed hcrc, ← hb', hrun₃ [0xc0] r, crcOver,
      if_neg fun hne => hne.2 rfl]
    rfl

end Packet

/-! ## The round trip -/

/-- The packets completed. -/
def frames (log : List Event) : List (List UInt8) :=
  log.filterMap fun
    | .frame bytes => some bytes
    | _ => none

theorem frames_wrote (ws : List (List UInt8)) : frames (ws.map .wrote) = [] := by
  induction ws with
  | nil => rfl
  | cons w ws ih => exact ih

/-- A command complete event too short for its headers, at a receiver in `H5_INIT`. -/
def ShortEvent (h : Hw) (data : List UInt8) (pktType : UInt8) : Prop :=
  h.linkEstabState = .init ∧ passUp pktType = true ∧ data.head? = some cmdCompleteEvtCode ∧
    data.length < 5

/-- No header begins like a command complete event. -/
theorem h5Header_ne_event (s : Hw) (len : Nat) (pktType : UInt8) (rel : Bool) :
    (h5Header s len pktType rel).getD 0 0 ≠ cmdCompleteEvtCode := by
  have hall : ∀ (ack tx : SeqNo) (crc rel : Bool),
      (if crc then
        (if rel then UInt8.ofNat ack.val <<< 3 ||| (0x80 + UInt8.ofNat tx.val)
          else UInt8.ofNat ack.val <<< 3) ||| 0x40
        else if rel then UInt8.ofNat ack.val <<< 3 ||| (0x80 + UInt8.ofNat tx.val)
          else UInt8.ofNat ack.val <<< 3) ≠ cmdCompleteEvtCode := by decide +kernel
  exact hall s.rxseqTxack s.msgqTxseq s.useCrc rel

section RoundTrip
variable {s h : Hw} {data : List UInt8} {pktType : UInt8} {rel : Bool}

/-- What `hci_recv_frame` finds at the front of a packet without its header: the payload, or
the header again where there is none. -/
theorem pulled_byte {skb s' : SkBuff} (hd : skb.data = h5Header s data.length pktType rel ++ data)
    (hpull : skbPull skb 4 = some s') :
    s'.byte 0 = cmdCompleteEvtCode ↔ data.head? = some cmdCompleteEvtCode := by
  have h4 : 4 ≤ skb.data.length := by
    rw [hd, List.length_append, h5Header_length]
    omega
  obtain ⟨s'', hpull', hd'⟩ := skbPull_some skb 4 h4
  have hblock : s'.block = data ++ skb.block.drop (skb.data.length - 4) := by
    rw [skbPull, if_neg (by omega)] at hpull
    cases hpull
    show skb.data.drop 4 ++ _ = _
    rw [hd]
    rfl
  cases data with
  | nil =>
    have hself : s'.byte 0 = skb.byte 0 := by
      rw [SkBuff.byte, hblock, hd]
      rfl
    rw [hself, byte_hdr hd (by decide)]
    refine ⟨?_, ?_⟩
    · intro h
      exact absurd h (h5Header_ne_event s _ pktType rel)
    · intro h
      cases h
  | cons c l =>
    rw [SkBuff.byte, hblock]
    show c = _ ↔ some c = some _
    rw [Option.some.injEq]

/-- The handler of the completed packet ends the program exactly at a short event. -/
theorem cutFrame_iff (ht : reliableType pktType = some rel) {state : RxState} {skb₀ skb : SkBuff}
    {crc : UInt16} (hd : skb.data = h5Header s data.length pktType rel ++ data) :
    CutFrame (h.inPacket state skb₀ crc 0) skb ↔ ShortEvent h data pktType := by
  have h4 : 4 ≤ skb.data.length := by
    rw [hd, List.length_append, h5Header_length]
    omega
  obtain ⟨s', hpull, hd'⟩ := skbPull_some skb 4 h4
  have hdata : s'.data = data := by
    rw [hd', hd]
    rfl
  have hbyte := pulled_byte hd hpull
  rw [CutFrame, byte_hdr hd (by decide), h5Header_pktType s _ ht]
  refine ⟨?_, ?_⟩
  · rintro ⟨hpass, t, ht', hlink, hevt, hlen⟩
    cases hpull.symm.trans ht'
    exact ⟨hlink, hpass, hbyte.mp hevt, hdata ▸ hlen⟩
  · rintro ⟨hlink, hpass, hevt, hlen⟩
    exact ⟨hpass, s', hpull, hlink, hbyte.mpr hevt, hdata ▸ hlen⟩

/-- What a sender in the state `s` writes for a payload goes over the line, and a receiver in
the state `h` completes it. -/
structure Delivered (freed : Hw → List UInt8 → UInt8) (s h : Hw) (data : List UInt8)
    (pktType : UInt8) (rel : Bool) (nskb : SkBuff) (line : List UInt8) (h' : Hw)
    (hdr : List UInt8) : Prop where
  prepared : h5PreparePkt s data pktType = .ok (some (nskb, s.prepared rel))
  framed : nskb.data = 0xc0 :: (line ++ [0xc0])
  reserved : ∀ x ∈ line, x ≠ 0xc0 ∧ x ≠ 0x11 ∧ x ≠ 0x13
  room : nskb.data.length ≤ (data.length + 6) * 2 + 2
  received : Received freed h nskb.data (.ok (h', []))
  between : h'.rxCount = 0 ∧ (h'.rxState = .w4PktDelimiter ∨ h'.rxState = .w4PktStart)
  frame : frames h'.log = frames h.log ++ [hdr ++ data]
  length : hdr.length = 4
  first : hdrByte (hdr.getD 0 0) =
    ⟨if rel then s.msgqTxseq else 0, s.rxseqTxack, s.useCrc, rel⟩
  type : hdrPktType (hdr.getD 1 0) = pktType
  payload : hdrLen (hdr.getD 1 0) (hdr.getD 2 0) = data.length
  checksum : hdrChecksum (hdr.getD 0 0) (hdr.getD 1 0) (hdr.getD 2 0) = hdr.getD 3 0

theorem encode_room (s : Hw) (data : List UInt8) (pktType : UInt8) (rel : Bool) :
    (0xc0 :: (slip.encode (h5Packet s data pktType rel) ++ [0xc0])).length ≤
      (data.length + 6) * 2 + 2 := by
  have henc := slip.encode_length_le (h5Packet s data pktType rel)
  have hlen : (h5Packet s data pktType rel).length ≤ data.length + 6 := by
    rw [h5Packet, List.length_append, List.length_append, h5Header_length]
    split
    · show 4 + data.length + 2 ≤ _
      omega
    · show 4 + data.length + 0 ≤ _
      omega
  rw [List.length_cons, List.length_append, List.length_singleton]
  omega

/-- The last delimiter is the first of the next packet. -/
theorem delimiter_received (freed : Hw → List UInt8 → UInt8) {h : Hw} (hcount : h.rxCount = 0)
    (hstate : h.rxState = .w4PktDelimiter) (r : Except Crash (Hw × List UInt8)) :
    Ends recvMore (recvStep freed) (h, [0xc0]) r ↔
      r = .ok ({ h with rxState := .w4PktStart }, []) := by
  have hstep : recvStep freed (h, [0xc0]) = .ok ({ h with rxState := .w4PktStart }, []) := by
    simp only [recvStep, if_neg (not_not.mpr hcount), hstate, if_true]
  exact (ends_next rfl hstep).trans (ends_exit rfl)

/-- A short event is not delivered: its handler ends the program. -/
theorem short_event_lost (freed : Hw → List UInt8 → UInt8) (ht : reliableType pktType = some rel)
    (hlen : data.length ≤ 4095) (hcount : h.rxCount = 0)
    (hstate : h.rxState = .w4PktDelimiter ∨ h.rxState = .w4PktStart)
    (hseq : h.rxseqTxack = s.msgqTxseq) (hshort : ShortEvent h data pktType) {nskb : SkBuff}
    {line hdr : List UInt8} {h' : Hw} :
    ¬ Delivered freed s h data pktType rel nskb line h' hdr := by
  intro hdel
  obtain ⟨nskb', hprep, hline⟩ := h5PreparePkt_sends s data ht
  obtain ⟨state, skb₀, crc, skb, hd, t, hstep, hmore, hrecv⟩ :=
    packet_received freed ht hlen hcount hstate hseq
  have hexit : recvStep freed t = .error .exit := by
    rw [hstep, completeStep, h5CompleteRxPkt_exit ((cutFrame_iff ht hd).mpr hshort)]
    rfl
  have hrun := hdel.received
  cases hprep.symm.trans hdel.prepared
  rw [hline, hrecv, ends_error hmore hexit] at hrun
  cases hrun

/-- Every other packet is. -/
theorem packet_delivered (freed : Hw → List UInt8 → UInt8) (ht : reliableType pktType = some rel)
    (hlen : data.length ≤ 4095) (hcount : h.rxCount = 0)
    (hstate : h.rxState = .w4PktDelimiter ∨ h.rxState = .w4PktStart)
    (hseq : h.rxseqTxack = s.msgqTxseq) (hshort : ¬ ShortEvent h data pktType) :
    ∃ nskb line h' hdr, Delivered freed s h data pktType rel nskb line h' hdr := by
  obtain ⟨nskb, hprep, hline⟩ := h5PreparePkt_sends s data ht
  obtain ⟨state, skb₀, crc, skb, hd, t, hstep, hmore, hrecv⟩ :=
    packet_received freed ht hlen hcount hstate hseq
  have h4 : 4 ≤ skb.data.length := by
    rw [hd, List.length_append, h5Header_length]
    omega
  obtain ⟨h', hok, hdone⟩ := h5CompleteRxPkt_ok h4 (mt (cutFrame_iff ht hd).mp hshort)
  -- the frame is handed up before the delimiter behind it is read
  have hnext : recvStep freed t = .ok (h', [0xc0]) := by
    rw [hstep, completeStep, hok]
    rfl
  refine ⟨nskb, _, { h' with rxState := .w4PktStart }, h5Header s data.length pktType rel, {
    prepared := hprep
    framed := hline
    reserved := fun x hx => slip_reserved hx
    room := hline ▸ encode_room s data pktType rel
    received := ?_
    between := ⟨hdone.count, .inr rfl⟩
    frame := ?_
    length := rfl
    first := h5Header_hdrByte s _ pktType rel
    type := h5Header_pktType s _ ht
    payload := h5Header_hdrLen s ht hlen
    checksum := rfl }⟩
  · rw [hline, hrecv, ends_next hmore hnext, delimiter_received freed hdone.count hdone.state]
  · obtain ⟨ws, hlog, -⟩ := hdone.log
    have hkeep : (h.inPacket state skb₀ crc 0).log = h.log := rfl
    show frames h'.log = _
    rw [hlog, hkeep, hd, frames, List.filterMap_append]
    show frames h.log ++ (_ :: frames (ws.map .wrote)) = _
    rw [frames_wrote]

/-- **The round trip.** Every payload, of any type the sender accepts, with or without a CRC,
is delivered, save for the events the receiver's handler does not survive. -/
theorem h5_round_trip_iff (freed : Hw → List UInt8 → UInt8) (s h : Hw) (data : List UInt8)
    (pktType : UInt8) (rel : Bool) (ht : reliableType pktType = some rel)
    (hlen : data.length ≤ 4095) (hcount : h.rxCount = 0)
    (hstate : h.rxState = .w4PktDelimiter ∨ h.rxState = .w4PktStart)
    (hseq : h.rxseqTxack = s.msgqTxseq) :
    (∃ nskb line h' hdr, Delivered freed s h data pktType rel nskb line h' hdr) ↔
      ¬ ShortEvent h data pktType := by
  refine ⟨?_, ?_⟩
  · rintro ⟨nskb, line, h', hdr, hdel⟩ hshort
    exact short_event_lost freed ht hlen hcount hstate hseq hshort hdel
  · exact packet_delivered freed ht hlen hcount hstate hseq

/-- A packet of a receiver and a sender that have just started. -/
theorem h5_round_trip_first : ∃ nskb line h' hdr,
    Delivered (fun _ _ => 0) rtkInit rtkInit [0xc0, 0xdb] HCI_EVENT_PKT true nskb line h' hdr :=
  (h5_round_trip_iff (fun _ _ => 0) rtkInit rtkInit [0xc0, 0xdb] HCI_EVENT_PKT true rfl (by decide)
    rfl (.inl rfl) rfl).mpr fun hshort => by cases hshort.1

/-- A receiver in `H5_INIT`, and an event that is nothing but its code. -/
theorem h5_short_event_lost : ¬ ∃ freed nskb line h' hdr,
    Delivered freed rtkInit { rtkInit with linkEstabState := .init }
      [cmdCompleteEvtCode] HCI_EVENT_PKT true nskb line h' hdr := by
  rintro ⟨freed, nskb, line, h', hdr, hdel⟩
  exact short_event_lost freed rfl (by decide) rfl (.inl rfl) rfl ⟨rfl, rfl, rfl, by decide⟩ hdel

end RoundTrip

end Lichee.Bluetooth

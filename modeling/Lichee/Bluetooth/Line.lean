import Lichee.Bluetooth.Sender

/- What a packet on the line carries. Between its delimiters stand, escaped, a header that can be
   read back and the payload it gives the length of, whatever the state the packet was prepared in
   (`packetOf_line`). The commands of a log are the payloads read off the lines that were written,
   not what the sender was called with. -/
namespace Lichee.Bluetooth
open Base

/-! ## The header -/

theorem h5Header_hdrByte (s : Hw) (len : Nat) (pktType : UInt8) (rel : Bool) :
    hdrByte ((h5Header s len pktType rel).getD 0 0) =
      ⟨if rel then s.msgqTxseq else 0, s.rxseqTxack, s.useCrc, rel⟩ := by
  have hall : ∀ (ack tx : SeqNo) (crc rel : Bool),
      hdrByte (if crc then
        (if rel then UInt8.ofNat ack.val <<< 3 ||| (0x80 + UInt8.ofNat tx.val)
          else UInt8.ofNat ack.val <<< 3) ||| 0x40
        else if rel then UInt8.ofNat ack.val <<< 3 ||| (0x80 + UInt8.ofNat tx.val)
          else UInt8.ofNat ack.val <<< 3) =
        ⟨if rel then tx else 0, ack, crc, rel⟩ := by decide +kernel
  exact hall s.rxseqTxack s.msgqTxseq s.useCrc rel

/-- The second byte of a header: the low bits of the length, and the type. -/
theorem hdr1_fields {pktType : UInt8} {rel : Bool} (ht : reliableType pktType = some rel)
    (len : Nat) : hdrPktType (UInt8.ofNat (len <<< 4) ||| pktType) = pktType ∧
      ((UInt8.ofNat (len <<< 4) ||| pktType) >>> 4).toNat = len % 16 := by
  have hlow : UInt8.ofNat (len <<< 4) = UInt8.ofNat (len % 16 * 16) := by
    rw [← UInt8.toNat_inj, UInt8.toNat_ofNat', UInt8.toNat_ofNat', Nat.shiftLeft_eq]
    omega
  have hall : ∀ t : Fin 256, (reliableType (.ofNat t)).isSome = true → ∀ r : Fin 16,
      hdrPktType (UInt8.ofNat (r.val * 16) ||| .ofNat t) = .ofNat t ∧
        ((UInt8.ofNat (r.val * 16) ||| .ofNat t) >>> 4).toNat = r.val := by decide +kernel
  have := hall ⟨pktType.toNat, pktType.toNat_lt⟩ (by rw [UInt8.ofNat_toNat, ht]; rfl)
    ⟨len % 16, Nat.mod_lt _ (by decide)⟩
  rw [UInt8.ofNat_toNat] at this
  rw [hlow]
  exact this

theorem h5Header_pktType (s : Hw) (len : Nat) {pktType : UInt8} {rel : Bool}
    (ht : reliableType pktType = some rel) :
    hdrPktType ((h5Header s len pktType rel).getD 1 0) = pktType := (hdr1_fields ht len).1

theorem h5Header_hdrLen (s : Hw) {len : Nat} {pktType : UInt8} {rel : Bool}
    (ht : reliableType pktType = some rel) (hlen : len ≤ 4095) :
    hdrLen ((h5Header s len pktType rel).getD 1 0) ((h5Header s len pktType rel).getD 2 0) =
      len := by
  have hhigh : (UInt8.ofNat (len >>> 4)).toNat = len / 16 := by
    rw [UInt8.toNat_ofNat', Nat.shiftRight_eq_div_pow]
    omega
  show ((UInt8.ofNat (len <<< 4) ||| pktType) >>> 4).toNat + (UInt8.ofNat (len >>> 4)).toNat * 16 =
    len
  rw [(hdr1_fields ht len).2, hhigh]
  omega

/-! ## The packet -/

/-- A packet as it is written. -/
def line (h : Hw) (data : List UInt8) (pktType : UInt8) (rel : Bool) : List UInt8 :=
  0xc0 :: (slip.encode (h5Packet h data pktType rel) ++ [0xc0])

/-- The type and the payload of a packet on the line. -/
def packetOf (w : List UInt8) : Option (UInt8 × List UInt8) :=
  if w.head? = some 0xc0 ∧ w.getLast? = some 0xc0 then
    (slip.decode w.tail.dropLast).map fun bytes =>
      (hdrPktType (bytes.getD 1 0), (bytes.drop 4).take (hdrLen (bytes.getD 1 0) (bytes.getD 2 0)))
  else none

/-- The payload of a command on the line. -/
def commandOf (w : List UInt8) : Option (List UInt8) :=
  match packetOf w with
  | some (pktType, payload) => if pktType = HCI_COMMAND_PKT then some payload else none
  | none => none

/-- The payload of a command that was written. -/
def Event.command : Event → Option (List UInt8)
  | .wrote w => commandOf w
  | _ => none

/-- The payloads of the commands written. -/
def commands (log : List Event) : List (List UInt8) := log.filterMap Event.command

section Line
variable (h : Hw) {data : List UInt8} {pktType : UInt8} {rel : Bool}

theorem packetOf_line (ht : reliableType pktType = some rel) (hlen : data.length ≤ 4095) :
    packetOf (line h data pktType rel) = some (pktType, data) := by
  have hends : (line h data pktType rel).head? = some 0xc0 ∧
      (line h data pktType rel).getLast? = some 0xc0 := by
    refine ⟨rfl, ?_⟩
    rw [line, ← List.cons_append, List.getLast?_concat]
  have hpayload : ((h5Packet h data pktType rel).drop 4).take data.length = data := by
    rw [h5Packet, List.append_assoc]
    exact List.take_left
  rw [packetOf, if_pos hends, line, List.tail_cons, List.dropLast_concat, slip.decode_encode,
    Option.map_some]
  show some (hdrPktType ((h5Header h data.length pktType rel).getD 1 0),
    ((h5Packet h data pktType rel).drop 4).take (hdrLen
      ((h5Header h data.length pktType rel).getD 1 0)
      ((h5Header h data.length pktType rel).getD 2 0))) = _
  rw [h5Header_pktType h _ ht, h5Header_hdrLen h ht hlen, hpayload]

/-- A command is read back. -/
theorem commandOf_command (hlen : data.length ≤ 4095) :
    commandOf (line h data HCI_COMMAND_PKT true) = some data := by
  rw [commandOf, packetOf_line h rfl hlen]
  exact if_pos rfl

/-- Another packet is no command. -/
theorem commandOf_other (ht : reliableType pktType = some rel) (hlen : data.length ≤ 4095)
    (hne : pktType ≠ HCI_COMMAND_PKT) : commandOf (line h data pktType rel) = none := by
  rw [commandOf, packetOf_line h ht hlen]
  exact if_neg hne

end Line

theorem commands_append (a b : List Event) : commands (a ++ b) = commands a ++ commands b :=
  List.filterMap_append

theorem commands_wrote {w cmd : List UInt8} (hw : commandOf w = some cmd) :
    commands [.wrote w] = [cmd] := List.filterMap_cons_some (f := Event.command) hw

/-- Lines that carry no command. -/
theorem commands_others {ws : List (List UInt8)} (hws : ∀ w ∈ ws, commandOf w = none) :
    commands (ws.map .wrote) = [] := by
  refine List.filterMap_eq_nil_iff.mpr fun e he => ?_
  obtain ⟨w, hw, rfl⟩ := List.mem_map.mp he
  exact hws w hw

theorem commandOf_ack (h : Hw) : commandOf (line h [] H5_ACK_PKT false) = none :=
  commandOf_other h rfl (Nat.zero_le _) (by decide)

theorem commandOf_syncResp : commandOf h5SyncRespPkt = none := by decide

theorem commandOf_confResp : commandOf h5ConfRespPktToCtrl = none := by decide

end Lichee.Bluetooth

import Lichee.Bluetooth.H5

/- What `h5_prepare_pkt` writes. For every type it accepts it returns a packet: the block
   it allocates has room for every byte escaped, so no append to it fails
   (`h5PreparePkt_sends`), and between the delimiters none of the bytes stands that the line
   is to be kept free of (`slip_reserved`). -/
namespace Lichee.Bluetooth
open Base

/-- Header, payload and CRC of the next packet, before the escapes. -/
def h5Packet (h : Hw) (data : List UInt8) (pktType : UInt8) (rel : Bool) : List UInt8 :=
  let hdr := h5Header h data.length pktType rel
  hdr ++ data ++ if h.useCrc then h5Trailer (hdr ++ data) else []

/-- The state after a packet was prepared. -/
def Hw.prepared (h : Hw) (rel : Bool) : Hw :=
  { h with
    isTxackReq := false
    msgqTxseq := if rel then h.msgqTxseq + 1 else h.msgqTxseq }

theorem put_room (skb : SkBuff) (bytes : List UInt8)
    (h : skb.data.length + bytes.length ≤ skb.maxLen) :
    ∃ skb', put skb bytes = .ok skb' ∧ skb'.data = skb.data ++ bytes ∧
      skb'.maxLen = skb.maxLen := by
  obtain ⟨skb', hput, hdata, hmax⟩ := skbPut_room skb bytes h
  exact ⟨skb', by rw [put, hput], hdata, hmax⟩

/-- Bytes are appended escaped, one after the other. -/
theorem slip_bytes (l : List UInt8) : ∀ skb : SkBuff,
    skb.data.length + (slip.encode l).length ≤ skb.maxLen →
    ∃ skb', l.foldlM h5SlipOneByte skb = .ok skb' ∧ skb'.data = skb.data ++ slip.encode l ∧
      skb'.maxLen = skb.maxLen := by
  induction l with
  | nil =>
    intro skb _
    exact ⟨skb, rfl, (List.append_nil _).symm, rfl⟩
  | cons c l ih =>
    intro skb h
    rw [slip.encode_cons, List.length_append] at h
    obtain ⟨skb₁, hput, hdata, hmax⟩ := put_room skb (slip.stuff c) (by omega)
    obtain ⟨skb₂, hrest, hdata', hmax'⟩ := ih skb₁ (by
      rw [hdata, hmax, List.length_append]
      omega)
    refine ⟨skb₂, ?_, ?_, hmax'.trans hmax⟩
    · rw [List.foldlM_cons, h5SlipOneByte, hput]
      exact hrest
    · rw [hdata', hdata, slip.encode_cons, List.append_assoc]

theorem h5Header_length (h : Hw) (len : Nat) (pktType : UInt8) (rel : Bool) :
    (h5Header h len pktType rel).length = 4 := rfl

/-- Every packet of an accepted type is prepared: no append exceeds the block. -/
theorem h5PreparePkt_sends (h : Hw) (data : List UInt8) {pktType : UInt8} {rel : Bool}
    (ht : reliableType pktType = some rel) :
    ∃ nskb, h5PreparePkt h data pktType = .ok (some (nskb, h.prepared rel)) ∧
      nskb.data = 0xc0 :: (slip.encode (h5Packet h data pktType rel) ++ [0xc0]) := by
  -- each part takes at most two bytes of the block for a byte of its own
  have hhdr := slip.encode_length_le (h5Header h data.length pktType rel)
  have hdat := slip.encode_length_le data
  have htrl := slip.encode_length_le
    (if h.useCrc then h5Trailer (h5Header h data.length pktType rel ++ data) else [])
  have hlen : (if h.useCrc then h5Trailer (h5Header h data.length pktType rel ++ data)
      else []).length ≤ 2 := by
    split
    · exact Nat.le_refl 2
    · exact Nat.zero_le 2
  rw [h5Header_length] at hhdr
  obtain ⟨s₁, h₁, d₁, m₁⟩ := put_room (skbAlloc ((data.length + 6) * 2 + 2)) [0xc0] (by simp)
  rw [skbAlloc_data, List.nil_append] at d₁
  rw [skbAlloc_maxLen] at m₁
  obtain ⟨s₂, h₂, d₂, m₂⟩ := slip_bytes (h5Header h data.length pktType rel) s₁ (by
    rw [d₁, m₁, List.length_singleton]
    omega)
  rw [d₁] at d₂
  obtain ⟨s₃, h₃, d₃, m₃⟩ := slip_bytes data s₂ (by
    rw [d₂, m₂, m₁, List.length_append, List.length_singleton]
    omega)
  rw [d₂] at d₃
  obtain ⟨s₄, h₄, d₄, m₄⟩ := slip_bytes
    (if h.useCrc then h5Trailer (h5Header h data.length pktType rel ++ data) else [])
    s₃ (by
      rw [d₃, m₃, m₂, m₁, List.length_append, List.length_append, List.length_singleton]
      omega)
  rw [d₃] at d₄
  obtain ⟨s₅, h₅, d₅, -⟩ := put_room s₄ [0xc0] (by
    rw [d₄, m₄, m₃, m₂, m₁]
    simp only [List.length_append, List.length_singleton]
    omega)
  refine ⟨s₅, ?_, ?_⟩
  · rw [h5PreparePkt, ht]
    simp only [h5SlipMsgdelim, h₁, h₂, h₃, h₄, h₅, ok_bind]
    rfl
  · rw [d₅, d₄, h5Packet, slip.encode_append, slip.encode_append]
    simp only [List.append_assoc, List.cons_append, List.nil_append]

/-- An unknown type is refused. -/
theorem h5PreparePkt_refuses (h : Hw) (data : List UInt8) {pktType : UInt8}
    (ht : reliableType pktType = none) : h5PreparePkt h data pktType = .ok none := by
  rw [h5PreparePkt, ht]

/-- The codes. -/
theorem slipCode_some {c d : UInt8} (h : slipCode c = some d) :
    d = 0xdc ∨ d = 0xdd ∨ d = 0xde ∨ d = 0xdf := by
  unfold slipCode at h
  split at h
  · exact .inl (Option.some.inj h).symm
  split at h
  · exact .inr (.inl (Option.some.inj h).symm)
  split at h
  · exact .inr (.inr (.inl (Option.some.inj h).symm))
  split at h
  · exact .inr (.inr (.inr (Option.some.inj h).symm))
  · cases h

/-- The bytes between the delimiters are none of those the line is kept free of. -/
theorem slip_reserved {x : UInt8} {l : List UInt8} (h : x ∈ slip.encode l) :
    x ≠ 0xc0 ∧ x ≠ 0x11 ∧ x ≠ 0x13 := by
  rcases slip.mem_encode h with rfl | ⟨c, hc⟩ | hx
  · decide
  · rcases slipCode_some hc with rfl | rfl | rfl | rfl <;> decide
  · refine ⟨?_, ?_, ?_⟩ <;>
    · rintro rfl
      cases hx

end Lichee.Bluetooth

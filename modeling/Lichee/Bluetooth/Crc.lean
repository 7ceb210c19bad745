import Lichee.Base.Crc
import Lichee.Bluetooth.H5

/- The CRC of a packet (`h5_crc_update` of hciattach_rtk.c). It is computed a nibble at a time, from
   a table of sixteen words, and is the bitwise CRC in a reflected register with the polynomial
   0x8408 (`h5Crc_eq_bitwise`). -/
namespace Lichee.Bluetooth
open Base

/-- The polynomial x^16 + x^12 + x^5 + 1, its lowest power in the highest bit. -/
abbrev crcPoly : BitVec 16 := 0x8408#16

/-- An entry of the table is its index behind four clocks. -/
theorem crcTable_clocks (i : BitVec 16) (h : i.toNat < 16) :
    (crcTable.getD i.toNat 0).toBitVec = crcClocks crcPoly 4 i := by
  have htable : ∀ n : Fin 16,
      (crcTable.getD n.val 0).toBitVec = crcClocks crcPoly 4 (BitVec.ofNat 16 n.val) := by
    decide
  have hi := htable ⟨i.toNat, h⟩
  rwa [BitVec.ofNat_toNat, BitVec.setWidth_eq] at hi

/-- A step of the table takes four bits, the lowest of `d`. -/
theorem crcTable_step (reg d : BitVec 16) :
    reg >>> 4 ^^^ (crcTable.getD ((reg ^^^ d) &&& 0x000f#16).toNat 0).toBitVec =
      crcBits crcPoly reg ((List.range 4).map d.getLsbD) := by
  have hmask : ∀ i, (0x000f#16).getLsbD i = decide (i < 4) := by
    intro i
    rw [BitVec.getLsbD_ofNat, show 0x000f = 2 ^ 4 - 1 by rfl, Nat.testBit_two_pow_sub_one]
    by_cases hi : i < 4
    · simp [hi, show i < 16 by omega]
    · simp [hi]
  have hlt : ((reg ^^^ d) &&& 0x000f#16).toNat < 16 := by
    rw [BitVec.toNat_and]
    exact Nat.lt_of_le_of_lt Nat.and_le_right (by decide)
  rw [crcTable_clocks _ hlt]
  refine (crcBits_table crcPoly (fun i hi => ?_) fun i hi => ?_).symm
  · rw [BitVec.getLsbD_and, hmask, decide_eq_true hi, Bool.and_true]
  · rw [BitVec.getLsbD_and, hmask, decide_eq_false (Nat.not_lt.mpr hi), Bool.and_false]

/-- The bits of a byte are those of its two nibbles. -/
theorem byteBits_nibbles (d : UInt8) : byteBits d =
    (List.range 4).map d.toUInt16.toBitVec.getLsbD ++
      (List.range 4).map (d >>> 4).toUInt16.toBitVec.getLsbD := by
  revert d
  apply byte_cases
  decide +kernel

theorem h5CrcUpdate_eq_bitwise (crc : UInt16) (d : UInt8) :
    (h5CrcUpdate crc d).toBitVec = crcBits crcPoly crc.toBitVec (byteBits d) := by
  rw [byteBits_nibbles, crcBits_append, ← crcTable_step, ← crcTable_step]
  rfl

theorem foldl_h5CrcUpdate (crc : UInt16) (bytes : List UInt8) :
    (bytes.foldl h5CrcUpdate crc).toBitVec = crcBytes crcPoly crc.toBitVec bytes := by
  induction bytes generalizing crc with
  | nil => rfl
  | cons d bytes ih => rw [List.foldl_cons, ih, crcBytes_cons, h5CrcUpdate_eq_bitwise]

/-- **The CRC of a list of bytes is the bitwise one**, from the same start. -/
theorem h5Crc_eq_bitwise (bytes : List UInt8) :
    (bytes.foldl h5CrcUpdate h5CrcInit).toBitVec = crcBytes crcPoly 0xffff#16 bytes :=
  foldl_h5CrcUpdate h5CrcInit bytes

end Lichee.Bluetooth
